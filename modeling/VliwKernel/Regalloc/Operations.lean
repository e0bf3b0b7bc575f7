import VliwKernel.Regalloc.Invariant

/-!
# What each allocator operation does

One case analysis for taking a home (`TakeStep`), one for giving it back, and for each
operation its effect on the invariant, on the two tag tables and on the undo log.
-/

namespace Vliw
namespace Tables

variable {t : Tables}

theorem bestFit_some {g c : Nat} (h : t.bestFit = some (g, c)) : t.granuleFree.get? g = some c ∧ 0 < c := by
  have key : ∀ (l : List (Nat × Nat)) (best : Option (Nat × Nat)) (b : Nat × Nat),
      (∀ x ∈ l, t.granuleFree.get? x.1 = some x.2) →
      (∀ b, best = some b → t.granuleFree.get? b.1 = some b.2 ∧ 0 < b.2) →
      l.foldl betterFit best = some b → t.granuleFree.get? b.1 = some b.2 ∧ 0 < b.2 := by
    intro l
    induction l with
    | nil => exact fun best b _ hb h => hb b h
    | cons x l ih =>
        intro best b hl hb h
        have hx := hl x (by simp)
        refine ih _ b (fun y hy => hl y (by simp [hy])) ?_ h
        intro b' hb'
        cases best with
        | none =>
            simp only [betterFit] at hb'
            split at hb'
            · cases hb'
              exact ⟨hx, by assumption⟩
            · cases hb'
        | some b₀ =>
            simp only [betterFit] at hb'
            split at hb'
            · next hc =>
                cases hb'
                exact ⟨hx, hc.1⟩
            · cases hb'
              exact hb _ rfl
  exact key t.granuleFree.items none (g, c) (fun x hx => Dict.mem_items.mp hx) (by simp) h

/-- The tables after claiming the granule `g` for one scalar, which gets the last word. -/
def claimWord (t : Tables) (g : Nat) (rest : List Nat) : Tables :=
  { t with
    freeVec := rest
    granuleWords := Function.update t.granuleWords g (some (List.range' g 7))
    wordGranule := fun w => if w ∈ granuleRange g then some g else t.wordGranule w
    granuleFree := t.granuleFree.set g 7
    claimOf := Function.update t.claimOf (g + 7) (some g) }

inductive TakeStep (t : Tables) (s : Sym) : Nat → Bool → Tables → Prop
  | vec {a rest} : s.isVec = true → t.freeVec = a :: rest → TakeStep t s a false { t with freeVec := rest }
  | word {g c a ws} : s.isVec = false → t.granuleFree.get? g = some (c + 1) →
      t.granuleWords g = some (ws ++ [a]) →
      TakeStep t s a false { t with
        granuleWords := Function.update t.granuleWords g (some ws)
        granuleFree := t.granuleFree.set g c }
  | claim {g rest} : s.isVec = false → t.freeVec = g :: rest → TakeStep t s (g + 7) true (t.claimWord g rest)

theorem granuleRange_eq (g : Nat) : granuleRange g = List.range' g 7 ++ [g + 7] := by
  rw [granuleRange, VLEN, List.range'_concat, one_mul]

theorem claim_popWord (t : Tables) (g : Nat) (rest : List Nat) :
    (t.claim g rest).popWord g = .ok (g + 7, { t.claimWord g rest with claimOf := t.claimOf }) := by
  have hl : (granuleRange g).getLast? = some (g + 7) := by simp [granuleRange_eq]
  have hd : (granuleRange g).dropLast = List.range' g 7 := by simp [granuleRange_eq]
  simp only [popWord, Tables.claim, claimWord, getKey, Function.update_self, Dict.get?_set_self, hl, hd, bind,
    Except.bind, Function.update_idem, Dict.set_idem, VLEN]

/-- With a home available, `take` succeeds by one of the three ways. -/
theorem Inv.take (h : t.Inv) {s : Sym} (hs : t.assigned s = none) (hcan : t.canWrite s = true) :
    ∃ a claimed u, t.take s = .ok (a, claimed, u) ∧ TakeStep t s a claimed u := by
  simp only [canWrite, hs, Option.isSome_none, Bool.false_or] at hcan
  cases hv : s.isVec with
  | true =>
      simp only [hv, if_true] at hcan
      cases hf : t.freeVec with
      | nil => simp [hf] at hcan
      | cons a rest =>
          exact ⟨a, false, { t with freeVec := rest }, by simp [Tables.take, hv, hf], .vec hv hf⟩
  | false =>
      cases hb : t.bestFit with
      | some b =>
          obtain ⟨g, c⟩ := b
          obtain ⟨hc, hpos⟩ := bestFit_some hb
          obtain ⟨c, rfl⟩ := Nat.exists_eq_succ_of_ne_zero (Nat.pos_iff_ne_zero.mp hpos)
          obtain ⟨ws, a, hws, -, -, -, hpop⟩ := h.popWord_ok hc
          exact ⟨a, false, _, by simp [Tables.take, hv, hb, hpop, bind, Except.bind], .word hv hc hws⟩
      | none =>
          cases hf : t.freeVec with
          | nil => simp [hv, hb, hf] at hcan
          | cons g rest =>
              refine ⟨g + 7, true, _, ?_, .claim hv hf⟩
              simp only [Tables.take, hv, hb, hf, Bool.false_eq_true, if_false]
              rw [claim_popWord]
              rfl

theorem take_names {s : Sym} {a : Nat} {claimed : Bool} {u : Tables} (h : TakeStep t s a claimed u) :
    u.names = t.names ∧ u.assigned = t.assigned ∧ u.remaining = t.remaining := by
  cases h <;> exact ⟨rfl, rfl, rfl⟩

theorem Inv.assign (h : t.Inv) {s : Sym} {a : Nat} {claimed : Bool} {u : Tables} (n : Int)
    (hs : t.assigned s = none) (hu : TakeStep t s a claimed u) : (u.assign s a n).Inv := by
  cases hu with
  | vec hv hf => exact h.assignVec hv hs hf
  | word hv hc hws => exact h.assignWord hv hs hc hws
  | @claim g rest hv hf =>
      have hcl := h.claim hf
      have hws : (t.claim g rest).granuleWords g = some (List.range' g 7 ++ [g + 7]) := by
        simp [Tables.claim, granuleRange_eq]
      have hc : (t.claim g rest).granuleFree.get? g = some (7 + 1) := by simp [Tables.claim, VLEN]
      have hInv := (hcl.assignWord (n := n) hv hs hc hws).setClaim (a := g + 7) (g := g)
        ⟨s, hv, by simp [Tables.assign]⟩ (by simp [Tables.assign, Tables.claim, mem_granuleRange, VLEN])
      simpa only [Tables.assign, Tables.claim, claimWord, Function.update_idem, Dict.set_idem] using hInv

theorem Inv.claimOf_none (h : t.Inv) {w : Nat} (hw : ¬ t.WordAt w) : t.claimOf w = none := by
  cases hc : t.claimOf w with
  | none => rfl
  | some g => exact absurd (h.claim_word hc).1 hw

/-- Before a free granule is claimed none of the tables mentions it. -/
theorem Inv.of_free (h : t.Inv) {g : Nat} {rest : List Nat} (hf : t.freeVec = g :: rest) :
    t.granuleFree.get? g = none ∧ t.granuleWords g = none ∧
      (∀ w ∈ granuleRange g, t.wordGranule w = none ∧ t.claimOf w = none) := by
  have hg : g ∈ t.freeVec := by simp [hf]
  have hnc : ¬ t.Claimed g := h.free_claimed hg
  refine ⟨by simpa [Claimed] using hnc, ?_, ?_⟩
  · cases hws : t.granuleWords g with
    | none => rfl
    | some ws => exact absurd (h.words_claimed (by simp [hws])) hnc
  · intro w hw
    have hwg : t.wordGranule w = none := by
      cases hx : t.wordGranule w with
      | none => rfl
      | some x =>
          obtain ⟨hc, hr⟩ := h.word_granule.mp hx
          exact absurd (granule_of_word (h.free_granule hg) (h.claimed_granule hc)
            (mem_granuleRange.mp hw) hr ▸ hc) hnc
    refine ⟨hwg, ?_⟩
    cases hx : t.claimOf w with
    | none => rfl
    | some x =>
        have := (h.claim_word hx).2
        rw [hwg] at this
        cases this

theorem Inv.forget_take (h : t.Inv) {s : Sym} {a : Nat} {claimed : Bool} {u : Tables}
    (hs : t.assigned s = none) (hu : TakeStep t s a claimed u) : u.forget s = u := by
  obtain ⟨-, ha, hr⟩ := take_names hu
  have hrs : t.remaining s = none := by simpa [hs] using h.remaining_assigned s
  have h₁ : Function.update u.assigned s none = u.assigned := by simp [ha, ← hs]
  have h₂ : Function.update u.remaining s none = u.remaining := by simp [hr, ← hrs]
  simp only [forget, h₁, h₂]

theorem Inv.dropped_claimWord (h : t.Inv) {g : Nat} {rest : List Nat} (hf : t.freeVec = g :: rest) :
    ({ t.claimWord g rest with claimOf := t.claimOf } : Tables).dropped g (g :: rest) = t := by
  obtain ⟨hgf, hgw, hw⟩ := h.of_free hf
  apply Tables.ext
  case freeVec => exact hf.symm
  case granuleWords => simp [dropped, claimWord, ← hgw]
  case granuleFree => exact Dict.erase_set hgf 7
  case wordGranule =>
    funext w
    simp only [dropped, claimWord]
    split
    · next hr => exact ((hw w hr).1).symm
    · rfl
  all_goals rfl

theorem Inv.claimOf_free (h : t.Inv) {g : Nat} {rest : List Nat} (hf : t.freeVec = g :: rest) :
    Function.update t.claimOf (g + 7) none = t.claimOf := by
  have hco := ((h.of_free hf).2.2 (g + 7) (by simp [mem_granuleRange, VLEN])).2
  simp [← hco]

theorem dropGranule_claimWord (g : Nat) (rest : List Nat) :
    ({ t.claimWord g rest with claimOf := t.claimOf } : Tables).dropGranule g (granuleRange g) =
      .ok (({ t.claimWord g rest with claimOf := t.claimOf } : Tables).dropped g rest) := by
  have hall : (granuleRange g).all (fun w => ((t.claimWord g rest).wordGranule w).isSome) = true := by
    rw [List.all_eq_true]
    intro w hw
    simp only [claimWord, hw, if_true]
    rfl
  simp only [claimWord] at hall
  simp only [Tables.dropGranule, claimWord, hall, Function.update_self, Option.isSome_some, Dict.get?_set_self,
    and_self, if_true]
  rfl

end Tables

namespace AllocEntry
open Tables

variable {rc : Sym → Option Int} {t : Tables}

theorem forget_assign (h : t.Inv) {s : Sym} {a : Nat} {claimed : Bool} {u : Tables} (hs : t.assigned s = none)
    (hu : TakeStep t s a claimed u) (n : Int) (nm : Option (String × Nat)) :
    ((u.assign s a n).setName a nm).forget s = u.setName a nm := by
  rw [← h.forget_take hs hu]
  simp [forget, setName, Tables.assign]

/-- The entry of a `write` undoes it exactly. -/
theorem undo_write (h : t.Inv) {s : Sym} {a : Nat} {claimed : Bool} {u : Tables} {n : Int}
    {nm : Option (String × Nat)} (hs : t.assigned s = none) (hu : TakeStep t s a claimed u) :
    (u.writeEntry s a claimed).undo rc ((u.assign s a n).setName a nm) = .ok t := by
  have hun : ((u.assign s a n).setName a nm).unassign s = .ok (a, u.setName a nm) := by
    rw [← forget_assign h hs hu n nm]
    simp [Tables.unassign, popKey, Tables.assign, forget, setName, bind, Except.bind]
  cases hu with
  | @vec a rest hv hf =>
      simp only [writeEntry, hv, if_true, undo, hun, bind, Except.bind]
      congr 1
      apply Tables.ext <;> simp [setName, hf]
  | @word g c a ws hv hc hws =>
      obtain ⟨ws', hws', hl, hn, hm⟩ := h.words hc
      obtain rfl := Option.some.inj (hws.symm.trans hws')
      have hg : t.wordGranule a = some g :=
        h.word_granule.mpr ⟨by simp [Claimed, hc], ((hm a).mp (by simp)).1⟩
      simp only [writeEntry, hv, Bool.false_eq_true, if_false, undo, hun, bind, Except.bind]
      simp only [setName, getKey, hg, pushWord, Function.update_self, Dict.get?_set_self, bind, Except.bind]
      congr 1
      apply Tables.ext <;> simp [Dict.set_set hc, ← hws]
  | @claim g rest hv hf =>
      simp only [writeEntry, hv, Bool.false_eq_true, if_false, undo, hun, bind, Except.bind, if_true]
      have hco : Function.update ((t.claimWord g rest).setName (g + 7) nm).claimOf (g + 7) none = t.claimOf := by
        simp [setName, claimWord, h.claimOf_free hf]
      have hdrop := dropGranule_claimWord (t := t.setName (g + 7) nm) g rest
      have hback := h.dropped_claimWord hf
      simp only [popKey, setName, claimWord, Function.update_self] at hco hdrop ⊢
      simp only [hco, hdrop]
      congr 1
      rw [Tables.ext_iff] at hback ⊢
      simpa [dropped, claimWord, setName] using hback

end AllocEntry

namespace Tables

variable {t : Tables}

inductive GiveBack (t : Tables) (s : Sym) (a : Nat) : Option DeallocPath → Tables → Prop
  | vec : s.isVec = true → GiveBack t s a none { t.forget s with freeVec := a :: t.freeVec }
  | ret {g c ws} : s.isVec = false → t.wordGranule a = some g → t.granuleFree.get? g = some c →
      t.granuleWords g = some ws → ¬ (t.claimOf a = some g ∧ c = 7) →
      GiveBack t s a (some .ret) (t.returned s a g c ws)
  | rev {g ws} : s.isVec = false → t.claimOf a = some g → t.granuleFree.get? g = some 7 →
      t.granuleWords g = some ws →
      GiveBack t s a (some .rev) ((t.returned s a g 7 ws).dropped g (g :: t.freeVec))

theorem Inv.giveBack (h : t.Inv) {s : Sym} {a : Nat} {p : Option DeallocPath} {u : Tables}
    (hs : t.assigned s = some a) (hu : GiveBack t s a p u) : u.Inv := by
  cases hu with
  | vec hv => exact h.releaseVec hv hs (.refl _)
  | ret hv hg hc hws _ => exact h.releaseWord hv hs hg hc hws
  | rev hv hco hc hws =>
      refine (h.releaseWord hv hs (h.claim_word hco).2 hc hws).dropGranule ?_ (.refl _)
      simp [returned, VLEN]

/-- A scalar word always finds one of the two ways back. -/
theorem Inv.scalarDealloc (h : t.Inv) {s : Sym} {a : Nat} (hv : s.isVec = false)
    (hs : t.assigned s = some a) :
    ∃ p u, (t.forget s).scalarDealloc a = .ok (p, u) ∧ GiveBack t s a (some p) u := by
  obtain ⟨g, c, ws, hg, hc, hws⟩ := h.granule_of_wordAt ⟨s, hv, hs⟩
  have hgf : (t.forget s).wordGranule a = some g := hg
  by_cases hrev : t.claimOf a = some g ∧ t.granuleFree.get? g = some (VLEN - 1)
  · refine ⟨.rev, (t.returned s a g 7 ws).dropped g (g :: t.freeVec), ?_, .rev hv hrev.1 hrev.2 hws⟩
    have hall : (granuleRange g).all (fun w => (t.wordGranule w).isSome) = true := by
      rw [List.all_eq_true]
      intro w hw
      rw [h.word_granule.mpr ⟨by simp [Claimed, hc], mem_granuleRange.mp hw⟩]
      rfl
    simp only [Tables.scalarDealloc, getKey, hgf, bind, Except.bind]
    rw [if_pos (by exact hrev)]
    simp only [Tables.dropGranule, forget, hall, hws, hc, Option.isSome_some, and_self, if_true]
    congr 2
    apply Tables.ext <;> simp [dropped, returned, forget, Dict.erase_set_idem hc]
  · refine ⟨.ret, t.returned s a g c ws, ?_, .ret hv hg hc hws ?_⟩
    · simp only [Tables.scalarDealloc, getKey, hgf, bind, Except.bind]
      rw [if_neg (by exact hrev)]
      simp [pushWord, getKey, forget, returned, hws, hc, bind, Except.bind]
    · rintro ⟨hco, rfl⟩
      exact hrev ⟨hco, hc⟩

end Tables

namespace AllocEntry
open Tables

variable {rc : Sym → Option Int} {t : Tables} {s : Sym} {a : Nat} {n : Int}

theorem removeFirst_cons (a : Nat) (xs : List Nat) : removeFirst (a :: xs) a = .ok xs := by
  simp [removeFirst]

theorem removeFirst_append {a : Nat} {xs : List Nat} (h : a ∉ xs) : removeFirst (xs ++ [a]) a = .ok xs := by
  simp [removeFirst, List.erase_append_right _ h]

theorem assign_forget (hs : t.assigned s = some a) (hr : t.remaining s = some n) :
    (t.forget s).assign s a n = t := by
  apply Tables.ext <;> simp [forget, Tables.assign, ← hs, ← hr]

theorem removeWord_returned (h : t.Inv) {g c : Nat} {ws : List Nat} (hs : t.assigned s = some a)
    (hv : s.isVec = false) (hc : t.granuleFree.get? g = some c) (hws : t.granuleWords g = some ws) :
    (t.returned s a g c ws).removeWord g a =
      .ok { t.forget s with claimOf := Function.update t.claimOf a none } := by
  obtain ⟨ws', hws', hl, hn, hm⟩ := h.words hc
  obtain rfl := Option.some.inj (hws.symm.trans hws')
  have ha : a ∉ ws := fun hmem => ((hm a).mp hmem).2 ⟨s, hv, hs⟩
  simp only [removeWord, getKey, returned, Function.update_self, Dict.get?_set_self, removeFirst_append ha, bind,
    Except.bind]
  congr 1
  apply Tables.ext <;> simp [forget, ← hws, Dict.set_set hc]

theorem claimOf_restore (h : t.Inv) {g : Nat} (hg : t.wordGranule a = some g) :
    (if (t.claimOf a).isSome then Function.update (Function.update t.claimOf a none) a (some g)
      else Function.update t.claimOf a none) = t.claimOf := by
  cases hco : t.claimOf a with
  | none => simp [← hco]
  | some g' =>
      have := (h.claim_word hco).2
      rw [hg] at this
      cases this
      rw [Option.isSome_some, if_pos rfl, Function.update_idem, ← hco, Function.update_eq_self]

theorem undo_unwrite_vec (hs : t.assigned s = some a) (hr : t.remaining s = some n) (hrc : rc s = some n)
    (hv : s.isVec = true) (b : Bool) :
    (AllocEntry.U s a b none).undo rc { t.forget s with freeVec := a :: t.freeVec } = .ok t := by
  simp only [undo, hv, if_true, removeFirst_cons, getKey, hrc, bind, Except.bind]
  exact congrArg _ (assign_forget hs hr)

theorem undo_unwrite_ret (h : t.Inv) (hs : t.assigned s = some a) (hr : t.remaining s = some n)
    (hrc : rc s = some n) (hv : s.isVec = false) {g c : Nat} {ws : List Nat}
    (hg : t.wordGranule a = some g) (hc : t.granuleFree.get? g = some c) (hws : t.granuleWords g = some ws) :
    (AllocEntry.U s a (t.claimOf a).isSome (some .ret)).undo rc (t.returned s a g c ws) = .ok t := by
  have hgr : (t.returned s a g c ws).wordGranule a = some g := hg
  have hback := claimOf_restore h hg
  simp only [undo, hv, Bool.false_eq_true, if_false, reduceCtorEq, Option.some.injEq, getKey, hgr,
    removeWord_returned h hs hv hc hws, hrc, bind, Except.bind]
  congr 1
  rw [← assign_forget hs hr]
  split at hback <;> simp_all [Tables.assign, forget]

/-- Undoing a reversed claim rebuilds the granule with its free words in ascending order. -/
theorem undo_unwrite_rev (h : t.Inv) (hs : t.assigned s = some a) (hr : t.remaining s = some n)
    (hrc : rc s = some n) (hv : s.isVec = false) {g : Nat} {ws : List Nat} (hco : t.claimOf a = some g)
    (hc : t.granuleFree.get? g = some 7) (b : Bool) :
    (AllocEntry.U s a b (some .rev)).undo rc ((t.returned s a g 7 ws).dropped g (g :: t.freeVec)) =
      .ok { t with
        granuleWords := Function.update t.granuleWords g (some ((granuleRange g).filter (· ≠ a)))
        granuleFree := (t.granuleFree.erase g).set g 7 } := by
  obtain ⟨hG, hlo, hhi⟩ := h.word_granule.mp (h.claim_word hco).2
  obtain ⟨⟨k, hk⟩, -, -⟩ := h.claimed_granule hG
  have hga : a - a % VLEN = g := by
    simp only [VLEN] at *
    omega
  have hwg : (fun w => if w ∈ granuleRange g then some g else
      if w ∈ granuleRange g then none else t.wordGranule w) = t.wordGranule := by
    funext w
    split
    · next hw => exact (h.word_granule.mpr ⟨hG, mem_granuleRange.mp hw⟩).symm
    · rfl
  simp only [undo, hv, Bool.false_eq_true, if_false, if_true, hga, dropped, removeFirst_cons, getKey, hrc, bind,
    Except.bind, returned]
  congr 1
  apply Tables.ext
  case wordGranule => exact hwg
  case claimOf => simp [Tables.assign, ← hco]
  all_goals simp [Tables.assign, forget, ← hs, ← hr, Dict.erase_set_idem hc, VLEN]

/-- The entries of a `read` that frees undo it exactly. -/
theorem undo_read_vec (h : t.Inv) (hs : t.assigned s = some a) (hr : t.remaining s = some 0)
    (hv : s.isVec = true) :
    (AllocEntry.F s a).undo rc { t.forget s with freeVec := t.freeVec ++ [a] } = .ok t := by
  have ha : a ∉ t.freeVec := fun hf => h.free_vec hf ⟨s, hv, hs⟩
  simp only [undo, removeFirst_append ha, bind, Except.bind]
  exact congrArg _ (assign_forget hs hr)

theorem undo_read_word (rc : Sym → Option Int) (h : t.Inv) (hs : t.assigned s = some a) (hr : t.remaining s = some 0)
    (hv : s.isVec = false) {g c : Nat} {ws : List Nat} (hg : t.wordGranule a = some g)
    (hc : t.granuleFree.get? g = some c) (hws : t.granuleWords g = some ws) :
    (AllocEntry.Fs s a (t.claimOf a).isSome).undo rc (t.returned s a g c ws) = .ok t := by
  have hgr : (t.returned s a g c ws).wordGranule a = some g := hg
  have hback := claimOf_restore h hg
  simp only [undo, getKey, hgr, removeWord_returned h hs hv hc hws, bind, Except.bind]
  congr 1
  rw [← assign_forget hs hr]
  split at hback <;> simp_all [Tables.assign, forget]

theorem undo_read (h : t.remaining s = some n) :
    (AllocEntry.R s).undo rc { t with remaining := Function.update t.remaining s (some (n - 1)) } = .ok t := by
  simp only [undo, getKey, Function.update_self, bind, Except.bind]
  congr 1
  apply Tables.ext <;> simp [← h]

end AllocEntry

namespace RegisterAllocator
open Tables AllocEntry

variable {rc : Sym → Option Int} {a : RegisterAllocator} {s : Sym} {n : Int}

/-- The log entries between two allocators undo the second exactly to the first. -/
abbrev Undoes (rc : Sym → Option Int) (a b : RegisterAllocator) : Prop :=
  Logged.Reverts (AllocEntry.undo rc) Eq a.tab b.tab

theorem Undoes.trans {a b c : RegisterAllocator} (hab : Undoes rc a b) (hbc : Undoes rc b c) :
    Undoes rc a c := Logged.Reverts.trans (Logged.Respects.eq _) Eq.trans hab hbc

theorem Undoes.refl (a : RegisterAllocator) : Undoes rc a a := Logged.Reverts.refl (fun _ => rfl) _

/-- A `write` of a tag without a home: its home, the allocator after it, the tables between. -/
structure Wrote (rc : Sym → Option Int) (a : RegisterAllocator) (s : Sym) (n : Int) (addr : Nat)
    (b : RegisterAllocator) : Prop where
  step : ∃ claimed u, TakeStep a.tab.val s addr claimed u ∧ b.tab = a.tab.record
    ((u.assign s addr n).setName addr (some (baseName s, if s.isVec then VLEN else 1)))
    (u.writeEntry s addr claimed)
  inv : b.tab.val.Inv
  assigned : b.tab.val.assigned = Function.update a.tab.val.assigned s (some addr)
  remaining : b.tab.val.remaining = Function.update a.tab.val.remaining s (some n)
  undoes : Undoes rc a b
  nAlloc : b.nAlloc = a.nAlloc + 1
  nFree : b.nFree = a.nFree
  warnings : b.exhaustionWarnings = a.exhaustionWarnings

theorem write_ok (h : a.tab.val.Inv) (hs : a.tab.val.assigned s = none) (hcan : a.canWrite s = true)
    (hn : rc s = some n) : ∃ addr b, a.write rc s = .ok (addr, b) ∧ Wrote rc a s n addr b := by
  obtain ⟨addr, claimed, u, htake, hu⟩ := h.take hs hcan
  obtain ⟨-, ha, hr⟩ := take_names hu
  refine ⟨addr, { a with
      tab := a.tab.record ((u.assign s addr n).setName addr (some (baseName s, if s.isVec then VLEN else 1)))
        (u.writeEntry s addr claimed)
      nAlloc := a.nAlloc + 1 }, ?_, ⟨claimed, u, hu, rfl⟩, ?_, ?_, ?_, ?_, rfl, rfl, rfl⟩
  · simp only [write, hs, htake, getKey, hn, bind, Except.bind]
  · exact (h.assign n hs hu).setName _ _
  · exact congrArg (Function.update · s (some addr)) ha
  · exact congrArg (Function.update · s (some n)) hr
  · exact Logged.Reverts.of_record (undo_write h hs hu) rfl

theorem write_sticky {addr : Nat} (hs : a.tab.val.assigned s = some addr) :
    a.write rc s = .ok (addr, a) := by
  simp [write, hs]

theorem unwrite_ok (h : a.tab.val.Inv) {addr : Nat} (hs : a.tab.val.assigned s = some addr)
    (hr : a.tab.val.remaining s = some n) (hn : rc s = some n) :
    ∃ p u, GiveBack a.tab.val s addr p u ∧
      a.unwrite rc s = .ok { a with tab := a.tab.record u (.U s addr (a.tab.val.claimOf addr).isSome p) } := by
  have hun := h.unassign_ok hs
  cases hv : s.isVec with
  | true =>
      refine ⟨none, _, .vec hv, ?_⟩
      simp only [unwrite, getKey, hn, hr, hs, hun, hv, Option.isSome_some, and_self, if_true, bind, Except.bind]
      rfl
  | false =>
      obtain ⟨p, u, hd, hu⟩ := h.scalarDealloc hv hs
      refine ⟨some p, u, hu, ?_⟩
      simp only [forget] at hd
      simp only [unwrite, getKey, hn, hr, hs, hun, hv, Option.isSome_some, and_self, if_true, bind, Except.bind,
        Bool.false_eq_true, if_false, hd]

/-- Giving back a home just taken leaves the tables as they were, but for the name. -/
theorem giveBack_take {t u v : Tables} (h : t.Inv) (hs : t.assigned s = none) {addr : Nat} {claimed : Bool}
    {nm : Option (String × Nat)} {p : Option DeallocPath} (hu : TakeStep t s addr claimed u)
    (hv : GiveBack ((u.assign s addr n).setName addr nm) s addr p v) : v = t.setName addr nm := by
  have hfor := forget_assign h hs hu n nm
  cases hu with
  | vec hvec hf =>
      cases hv with
      | vec _ =>
          rw [hfor]
          apply Tables.ext <;> simp [setName, Tables.assign, hf]
      | ret hnv => simp [hvec] at hnv
      | rev hnv => simp [hvec] at hnv
  | @word g c _ ws hnv hc hws =>
      obtain ⟨ws', hws', hl, hn, hm⟩ := h.words hc
      obtain rfl := Option.some.inj (hws.symm.trans hws')
      obtain ⟨hr, hfree⟩ := (hm addr).mp (by simp)
      have hg : t.wordGranule addr = some g := h.word_granule.mpr ⟨by simp [Claimed, hc], hr⟩
      have hco := h.claimOf_none hfree
      cases hv with
      | vec hvec => simp [hvec] at hnv
      | ret _ hg' hc' hws'' =>
          obtain rfl : g = _ := Option.some.inj (hg.symm.trans hg')
          simp only [setName, Tables.assign, Dict.get?_set_self, Function.update_self, Option.some.injEq] at hc' hws''
          subst hc' hws''
          rw [returned, hfor]
          apply Tables.ext
          case claimOf => simp [setName, Tables.assign, ← hco]
          case granuleWords => simp [setName, Tables.assign, ← hws]
          case granuleFree => exact Dict.set_set hc c
          all_goals rfl
      | rev _ hco' => simp [setName, Tables.assign, hco] at hco'
  | @claim g rest hnv hf =>
      obtain ⟨hgf, hgw, hw⟩ := h.of_free hf
      have hg : (t.claimWord g rest).wordGranule (g + 7) = some g := by
        simp [claimWord, mem_granuleRange, VLEN]
      have hco : (t.claimWord g rest).claimOf (g + 7) = some g := by simp [claimWord]
      cases hv with
      | vec hvec => simp [hvec] at hnv
      | ret _ hg' hc' _ hnot =>
          obtain rfl : g = _ := Option.some.inj (hg.symm.trans hg')
          simp only [setName, Tables.assign, claimWord, Dict.get?_set_self, Option.some.injEq] at hc'
          exact absurd ⟨hco, hc'.symm⟩ hnot
      | rev _ hco' _ hws' =>
          obtain rfl : g = _ := Option.some.inj (hco.symm.trans hco')
          have hback := h.dropped_claimWord hf
          rw [returned, hfor]
          rw [Tables.ext_iff] at hback ⊢
          simp only [dropped, setName, Tables.assign, claimWord, Function.update_idem, Dict.set_idem,
            h.claimOf_free hf] at hback ⊢
          refine ⟨hback.1, hback.2.1, ?_, hback.2.2.2.1, trivial, trivial, trivial, trivial⟩
          rw [Dict.erase_set hgf]

theorem filter_granuleRange (g : Nat) : (granuleRange g).filter (· ≠ g + 7) = List.range' g 7 := by
  have hall : ∀ w ∈ List.range' g 7, decide (w ≠ g + 7) = true := by
    intro w hw
    have := (List.mem_range'_1.mp hw).2
    exact decide_eq_true (by omega)
  rw [granuleRange_eq, List.filter_append, List.filter_eq_self.mpr hall]
  simp

theorem undo_giveBack_take {t u v : Tables} (h : t.Inv) (hs : t.assigned s = none) {addr : Nat}
    {claimed : Bool} {nm : Option (String × Nat)} {p : Option DeallocPath} (hrc : rc s = some n)
    (hu : TakeStep t s addr claimed u) (hv : GiveBack ((u.assign s addr n).setName addr nm) s addr p v) :
    (AllocEntry.U s addr (u.claimOf addr).isSome p).undo rc v = .ok ((u.assign s addr n).setName addr nm) := by
  have hInv := (h.assign n hs hu).setName addr nm
  have hs' : ((u.assign s addr n).setName addr nm).assigned s = some addr := by simp [setName, Tables.assign]
  have hr' : ((u.assign s addr n).setName addr nm).remaining s = some n := by simp [setName, Tables.assign]
  cases hv with
  | vec hvec => exact undo_unwrite_vec hs' hr' hrc hvec _
  | ret hnv hg hc hws _ => exact undo_unwrite_ret hInv hs' hr' hrc hnv hg hc hws
  | @rev g ws hnv hco hc hws =>
      rw [undo_unwrite_rev hInv hs' hr' hrc hnv hco hc]
      congr 1
      cases hu with
      | vec hvec hf => simp [hvec] at hnv
      | word _ hc' hws' =>
          obtain ⟨_, hws'', _, _, hm⟩ := h.words hc'
          obtain rfl := Option.some.inj (hws'.symm.trans hws'')
          have := h.claimOf_none ((hm addr).mp (by simp)).2
          simp [setName, Tables.assign, this] at hco
      | @claim g' rest _ hf =>
          obtain rfl : g' = g := by simpa [setName, Tables.assign, claimWord] using hco
          have hfil := filter_granuleRange g'
          apply Tables.ext
          case granuleWords =>
            simp only [setName, Tables.assign, claimWord, Function.update_idem, hfil]
          case granuleFree =>
            simp only [setName, Tables.assign, claimWord]
            rw [Dict.erase_set (h.of_free hf).1]
          all_goals rfl

/-- Taking a speculative write straight back leaves the tables as they were, but for the name,
and the log still undoes both. -/
theorem unwrite_write (h : a.tab.val.Inv) (hs : a.tab.val.assigned s = none) (hn : rc s = some n) {addr : Nat}
    {b : RegisterAllocator} (hw : Wrote rc a s n addr b) : ∃ c, b.unwrite rc s = .ok c ∧
      c.tab.val = a.tab.val.setName addr (some (baseName s, if s.isVec then VLEN else 1)) ∧
      Undoes rc b c ∧ c.nAlloc = b.nAlloc ∧ c.nFree = b.nFree ∧
      c.exhaustionWarnings = b.exhaustionWarnings := by
  obtain ⟨claimed, u, hu, hb⟩ := hw.step
  have hbs : b.tab.val.assigned s = some addr := by simp [hw.assigned]
  have hbr : b.tab.val.remaining s = some n := by simp [hw.remaining]
  obtain ⟨p, v, hv, hun⟩ := unwrite_ok hw.inv hbs hbr hn
  have hbv : b.tab.val = (u.assign s addr n).setName addr _ := congrArg Logged.val hb
  rw [hbv] at hv
  refine ⟨_, hun, giveBack_take h hs hu hv, ?_, rfl, rfl, rfl⟩
  refine Logged.Reverts.of_record ?_ rfl
  rw [hbv]
  exact undo_giveBack_take h hs hn hu hv

structure ReadStep (rc : Sym → Option Int) (a : RegisterAllocator) (s : Sym) (n : Int)
    (b : RegisterAllocator) : Prop where
  inv : b.tab.val.Inv
  assigned : b.tab.val.assigned =
    if n = 1 then Function.update a.tab.val.assigned s none else a.tab.val.assigned
  remaining : b.tab.val.remaining =
    if n = 1 then Function.update a.tab.val.remaining s none
    else Function.update a.tab.val.remaining s (some (n - 1))
  undoes : Undoes rc a b
  nAlloc : b.nAlloc = a.nAlloc
  nFree : b.nFree = if n = 1 then a.nFree + 1 else a.nFree
  warnings : b.exhaustionWarnings = a.exhaustionWarnings

theorem Inv.setRemaining {t : Tables} (h : t.Inv) (hr : (t.remaining s).isSome) (k : Int) :
    ({ t with remaining := Function.update t.remaining s (some k) } : Tables).Inv := by
  refine { h with remaining_assigned := fun s' => ?_ }
  have := h.remaining_assigned s'
  simp only [Function.update_apply]
  split <;> simp_all

theorem read_last (h : a.tab.val.Inv) {addr : Nat} (hs : a.tab.val.assigned s = some addr)
    (hr : a.tab.val.remaining s = some 1) : ∃ b, a.read s = .ok b ∧ ReadStep rc a s 1 b := by
  set t := a.tab.val with ht
  set t₁ : Tables := { t with remaining := Function.update t.remaining s (some 0) } with ht₁
  have h₁ : t₁.Inv := Inv.setRemaining h (by rw [hr]; rfl) 0
  have hs₁ : t₁.assigned s = some addr := hs
  have hr₁ : t₁.remaining s = some 0 := by simp [ht₁]
  have hR : Logged.Reverts (AllocEntry.undo rc) Eq a.tab (a.tab.record t₁ (.R s)) :=
    Logged.Reverts.of_record (undo_read hr) rfl
  have hun := h₁.unassign_ok hs₁
  have hfor : t₁.forget s = t.forget s := by simp [forget, ht₁]
  simp only [RegisterAllocator.read, ← ht, getKey, hr, bind, Except.bind, sub_self, if_true, Logged.record_val, ← ht₁,
    hun]
  cases hv : s.isVec with
  | true =>
      refine ⟨_, rfl, h₁.releaseVec hv hs₁ (List.perm_append_singleton addr _), rfl, ?_, ?_, rfl, rfl, rfl⟩
      · simp [ht₁, ht]
      · exact Logged.Reverts.trans (Logged.Respects.eq _) Eq.trans hR
          (Logged.Reverts.of_record (undo_read_vec h₁ hs₁ hr₁ hv) rfl)
  | false =>
      obtain ⟨g, c, ws, hg, hc, hws⟩ := h₁.granule_of_wordAt ⟨s, hv, hs₁⟩
      have hret := h₁.releaseWord hv hs₁ hg hc hws
      have hundo := undo_read_word rc h₁ hs₁ hr₁ hv hg hc hws
      simp only [Bool.false_eq_true, if_false, hg, pushWord, getKey, hc, hws, bind, Except.bind]
      refine ⟨_, rfl, hret, rfl, ?_, ?_, rfl, rfl, rfl⟩
      · simp [ht₁, ht]
      · exact Logged.Reverts.trans (Logged.Respects.eq _) Eq.trans hR
          (Logged.Reverts.of_record hundo rfl)

/-- A read of a live tag that still expects reads cannot raise. -/
theorem read_ok (rc : Sym → Option Int) (h : a.tab.val.Inv) {addr : Nat} (hs : a.tab.val.assigned s = some addr)
    (hr : a.tab.val.remaining s = some n) : ∃ b, a.read s = .ok b ∧ ReadStep rc a s n b := by
  by_cases hn : n = 1
  · subst hn
    exact read_last h hs hr
  · have hne : n - 1 ≠ 0 := by omega
    refine ⟨{ a with tab := a.tab.record { a.tab.val with
        remaining := Function.update a.tab.val.remaining s (some (n - 1)) } (.R s) }, ?_, ?_⟩
    · simp [RegisterAllocator.read, getKey, hr, hne, bind, Except.bind]
    · refine ⟨Inv.setRemaining h (by rw [hr]; rfl) _, ?_, ?_, ?_, rfl, ?_, rfl⟩
      · simp [hn]
      · simp [hn]
      · exact Logged.Reverts.of_record (undo_read hr) rfl
      · simp [hn]

theorem reclaim_ok {t : Tables} (h : t.Inv) {g : Nat} (hc : t.granuleFree.get? g = some VLEN) :
    reclaim t g = .ok (t.dropped g (t.freeVec ++ [g])) ∧ (t.dropped g (t.freeVec ++ [g])).Inv := by
  obtain ⟨ws, hws, -⟩ := h.words hc
  refine ⟨?_, h.dropGranule hc (List.perm_append_singleton g _)⟩
  simp only [reclaim, getKey, hws, h.dropGranule_ok hc hws (h.mem_words_full hc hws), bind, Except.bind]
  rfl

theorem reclaim_foldlM {t : Tables} (h : t.Inv) {gs : List Nat} (hnd : gs.Nodup)
    (hc : ∀ g ∈ gs, t.granuleFree.get? g = some VLEN) :
    ∃ u, gs.foldlM reclaim t = .ok u ∧ u.Inv ∧ u.assigned = t.assigned ∧ u.remaining = t.remaining := by
  induction gs generalizing t with
  | nil => exact ⟨t, rfl, h, rfl, rfl⟩
  | cons g gs ih =>
      obtain ⟨hg, hnd⟩ := List.nodup_cons.mp hnd
      obtain ⟨hok, hInv⟩ := reclaim_ok h (hc g (by simp))
      obtain ⟨u, hu, hu', ha, hr⟩ := ih hInv hnd (fun x hx => by
        simp only [dropped, Dict.get?_erase]
        rw [if_neg (by rintro rfl; exact hg hx)]
        exact hc x (by simp [hx]))
      refine ⟨u, ?_, hu', ha, hr⟩
      simp only [List.foldlM_cons, hok, bind, Except.bind]
      exact hu

theorem collect_ok (h : a.tab.val.Inv) : ∃ u, a.collectScalarGarbage = .ok { a with tab := ⟨u, a.tab.log⟩ } ∧
    u.Inv ∧ u.assigned = a.tab.val.assigned ∧ u.remaining = a.tab.val.remaining := by
  have hnd : ((a.tab.val.granuleFree.items.filter (·.2 = VLEN)).map Prod.fst).Nodup := by
    have hitems := Dict.nodup_items a.tab.val.granuleFree
    exact (List.Sublist.map _ List.filter_sublist).nodup hitems
  obtain ⟨u, hu, hrest⟩ := reclaim_foldlM h hnd (by
    intro g hg
    obtain ⟨⟨g', c⟩, hm, rfl⟩ := List.mem_map.mp hg
    obtain ⟨hm, hc⟩ := List.mem_filter.mp hm
    obtain rfl : c = VLEN := of_decide_eq_true hc
    exact Dict.mem_items.mp hm)
  refine ⟨u, ?_, hrest⟩
  simp only [collectScalarGarbage, hu, bind, Except.bind]

/-- What collection does to the pool: wholly free granules go from the claimed ones to the end of the queue. -/
theorem reclaim_foldlM_pool {t u : Tables} {gs : List Nat} (h : t.Inv) (hnd : gs.Nodup)
    (hc : ∀ g ∈ gs, t.granuleFree.get? g = some VLEN) (hu : gs.foldlM reclaim t = .ok u) :
    u.freeVec = t.freeVec ++ gs ∧ ∀ g, u.granuleFree.get? g = if g ∈ gs then none else t.granuleFree.get? g := by
  induction gs generalizing t with
  | nil =>
      cases hu
      simp
  | cons x gs ih =>
      obtain ⟨hx, hnd⟩ := List.nodup_cons.mp hnd
      obtain ⟨hok, hinv⟩ := reclaim_ok h (hc x (by simp))
      rw [List.foldlM_cons, hok, bind_ok] at hu
      obtain ⟨hfree, hget⟩ := ih hinv hnd (fun g hg => by
        simp only [dropped, Dict.get?_erase]
        rw [if_neg (by rintro rfl; exact hx hg)]
        exact hc g (by simp [hg])) hu
      refine ⟨by simp [hfree, dropped], fun g => ?_⟩
      rw [hget]
      simp only [dropped, Dict.get?_erase, List.mem_cons]
      by_cases hgx : g = x <;> simp [hgx]

theorem mem_reclaimable {t : Tables} {g : Nat} :
    g ∈ (t.granuleFree.items.filter (·.2 = VLEN)).map Prod.fst ↔ t.granuleFree.get? g = some VLEN := by
  simp only [List.mem_map, List.mem_filter, decide_eq_true_eq]
  constructor
  · rintro ⟨⟨g', c⟩, ⟨hm, rfl⟩, rfl⟩
    exact Dict.mem_items.mp hm
  · exact fun hg => ⟨(g, VLEN), ⟨Dict.mem_items.mpr hg, rfl⟩, rfl⟩

/-- Collection leaves no claimed granule wholly free, and does nothing if there was none. -/
theorem collect_tidy (h : a.tab.val.Inv) {b : RegisterAllocator} (hb : a.collectScalarGarbage = .ok b) :
    b.tab.val.Tidy ∧ (a.tab.val.Tidy ↔ b.tab = a.tab) := by
  obtain ⟨u, hu, hb⟩ := bind_eq_ok.mp hb
  cases hb
  have hnd : ((a.tab.val.granuleFree.items.filter (·.2 = VLEN)).map Prod.fst).Nodup :=
    (List.Sublist.map _ List.filter_sublist).nodup (Dict.nodup_items a.tab.val.granuleFree)
  obtain ⟨hfree, hget⟩ := reclaim_foldlM_pool h hnd (fun g hg => mem_reclaimable.mp hg) hu
  refine ⟨fun g => ?_, fun ht => ?_, fun heq g hg => ?_⟩
  · rw [hget]
    split
    · simp
    · next hg => exact fun hc => hg (mem_reclaimable.mpr hc)
  · have hnil : (a.tab.val.granuleFree.items.filter (·.2 = VLEN)).map Prod.fst = [] :=
      List.eq_nil_iff_forall_not_mem.mpr fun g hg => ht g (mem_reclaimable.mp hg)
    rw [hnil] at hu
    cases hu
    rfl
  · have hval : u = a.tab.val := congrArg Logged.val heq
    rw [hval, List.self_eq_append_right] at hfree
    have := mem_reclaimable.mpr hg
    rw [hfree] at this
    cases this

end RegisterAllocator
end Vliw
