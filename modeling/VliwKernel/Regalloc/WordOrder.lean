import VliwKernel.Regalloc.Runs

/-!
# The order of the free words

Tables that agree but for the order in which a granule lists its free words, and what undoing a log entry keeps of that
order: the words that are free all along stay where they are.
-/

namespace Vliw

/-- Equal tables, where `granuleFree` is compared as a mapping: the order of a dictionary's keys
is no part of its equality. -/
structure Tables.Same (t u : Tables) : Prop where
  freeVec : t.freeVec = u.freeVec
  granuleWords : t.granuleWords = u.granuleWords
  granuleFree : ∀ g, t.granuleFree.get? g = u.granuleFree.get? g
  wordGranule : t.wordGranule = u.wordGranule
  claimOf : t.claimOf = u.claimOf
  assigned : t.assigned = u.assigned
  remaining : t.remaining = u.remaining
  names : t.names = u.names

/-- The lists of a granule in two tables: both missing, or with the same words, of which those in `U` come in the same order
just when `D` holds. -/
inductive WordsAlike (U : Nat → Bool) (D : Prop) : Option (List Nat) → Option (List Nat) → Prop
  | missing : D → WordsAlike U D none none
  | listed {ws ws' : List Nat} : ws.Perm ws' → (D ↔ ws.filter U = ws'.filter U) → WordsAlike U D (some ws) (some ws')

namespace WordsAlike

variable {U V : Nat → Bool} {D E : Prop} {x y : Option (List Nat)} {ws ws' : List Nat} {a : Nat}

theorem refl (U : Nat → Bool) (hD : D) (x : Option (List Nat)) : WordsAlike U D x x := by
  cases x with
  | none => exact .missing hD
  | some ws => exact .listed (.refl ws) (iff_of_true hD rfl)

theorem perm (h : WordsAlike U D (some ws) (some ws')) : ws.Perm ws' := by
  cases h with
  | listed hp _ => exact hp

theorem isSome (h : WordsAlike U D x y) : x.isSome = y.isSome := by
  cases h <;> rfl

theorem congr (h : WordsAlike U D x y) (hDE : D ↔ E) : WordsAlike U E x y := by
  cases h with
  | missing hD => exact .missing (hDE.mp hD)
  | listed hp hf => exact .listed hp (hDE.symm.trans hf)

theorem reindex (h : WordsAlike V D x y) (hV : ∀ ws, y = some ws → ∀ w ∈ ws, V w = U w) : WordsAlike U D x y := by
  cases h with
  | missing hD => exact .missing hD
  | @listed ws ws' hp hf =>
      have hws' := List.filter_congr (hV ws' rfl)
      have hws := List.filter_congr fun w hw => hV ws' rfl w (hp.subset hw)
      exact .listed hp (by rw [hf, hws, hws'])

theorem push (h : WordsAlike U D (some ws) (some ws')) (a : Nat) : WordsAlike U D (some (ws ++ [a])) (some (ws' ++ [a])) := by
  cases h with
  | listed hp hf => exact .listed (hp.append_right [a]) (by rw [hf, List.filter_append, List.filter_append, List.append_left_inj])

theorem erase (h : WordsAlike U D (some ws) (some ws')) (ha : U a = false) :
    WordsAlike U D (some (ws.erase a)) (some (ws'.erase a)) := by
  have hkeep : ∀ l : List Nat, (l.erase a).filter U = l.filter U := by
    intro l
    rw [← List.erase_filter, List.erase_of_not_mem]
    simp [ha]
  cases h with
  | listed hp hf => exact .listed (hp.erase a) (by rw [hf, hkeep, hkeep])

theorem holds (h : WordsAlike U D x y) (hy : ∀ ws, y = some ws → ∀ w ∈ ws, U w = false) : D := by
  cases h with
  | missing hD => exact hD
  | @listed ws ws' hp hf =>
      have hnone : ∀ l : List Nat, (∀ w ∈ l, w ∈ ws') → l.filter U = [] :=
        fun l hl => List.filter_eq_nil_iff.mpr fun w hw => by simp [hy ws' rfl w (hl w hw)]
      rw [hf, hnone ws fun w hw => hp.subset hw, hnone ws' fun w hw => hw]

end WordsAlike

/-- Equal tables but for the order in which the granules list their free words. -/
structure Tables.Alike (U : Nat → Bool) (D : Nat → Prop) (t u : Tables) : Prop where
  freeVec : t.freeVec = u.freeVec
  granuleWords : ∀ g, WordsAlike U (D g) (t.granuleWords g) (u.granuleWords g)
  granuleFree : ∀ g, t.granuleFree.get? g = u.granuleFree.get? g
  wordGranule : t.wordGranule = u.wordGranule
  claimOf : t.claimOf = u.claimOf
  assigned : t.assigned = u.assigned
  remaining : t.remaining = u.remaining
  names : t.names = u.names

namespace Tables.Alike

variable {U V : Nat → Bool} {D E : Nat → Prop} {t u v : Tables}

theorem refl (U : Nat → Bool) (hD : ∀ g, D g) (t : Tables) : t.Alike U D t :=
  ⟨rfl, fun g => .refl U (hD g) _, fun _ => rfl, rfl, rfl, rfl, rfl, rfl⟩

theorem congr (h : t.Alike U D u) (hDE : ∀ g, D g ↔ E g) : t.Alike U E u :=
  { h with granuleWords := fun g => (h.granuleWords g).congr (hDE g) }

theorem reindex (h : t.Alike V D u) (hV : ∀ g ws, u.granuleWords g = some ws → ∀ w ∈ ws, V w = U w) : t.Alike U D u :=
  { h with granuleWords := fun g => (h.granuleWords g).reindex (hV g) }

theorem setWords (h : t.Alike U D u) (g : Nat) {x y : Option (List Nat)} (hxy : WordsAlike U (D g) x y) (k : Nat) :
    WordsAlike U (D k) (Function.update t.granuleWords g x k) (Function.update u.granuleWords g y k) := by
  by_cases hk : k = g
  · subst hk
    rwa [Function.update_self, Function.update_self]
  · rw [Function.update_of_ne hk, Function.update_of_ne hk]
    exact h.granuleWords k

theorem get?_set {d e : Dict Nat Nat} (h : ∀ g, d.get? g = e.get? g) (k c g : Nat) : (d.set k c).get? g = (e.set k c).get? g := by
  simp only [Dict.get?_set, h]

theorem assign (h : t.Alike U D u) (tag : Sym) (addr : Nat) (n : Int) : (t.assign tag addr n).Alike U D (u.assign tag addr n) :=
  { h with assigned := by rw [Tables.assign, h.assigned]; rfl
           remaining := by rw [Tables.assign, h.remaining]; rfl }

theorem setName (h : t.Alike U D u) (addr : Nat) (nm : Option (String × Nat)) : (t.setName addr nm).Alike U D (u.setName addr nm) :=
  { h with names := by rw [Tables.setName, h.names]; rfl }

theorem withFree (h : t.Alike U D u) (xs : List Nat) :
    ({ t with freeVec := xs } : Tables).Alike U D { u with freeVec := xs } := { h with freeVec := rfl }

theorem push (h : t.Alike U D u) (x : Nat) :
    ({ t with freeVec := x :: t.freeVec } : Tables).Alike U D { u with freeVec := x :: u.freeVec } :=
  { h with freeVec := by rw [h.freeVec] }

theorem withClaimOf (h : t.Alike U D u) (f : Nat → Option Nat) :
    ({ t with claimOf := f } : Tables).Alike U D { u with claimOf := f } := { h with claimOf := rfl }

theorem setClaim (h : t.Alike U D u) (addr g : Nat) :
    ({ t with claimOf := Function.update t.claimOf addr (some g) } : Tables).Alike U D
      { u with claimOf := Function.update u.claimOf addr (some g) } :=
  { h with claimOf := by rw [h.claimOf] }

theorem bind_same {α β : Type} {R : β → β → Prop} (x : Except PyErr α) {f g : α → Except PyErr β}
    (h : ∀ a, Agree R (f a) (g a)) : Agree R (x >>= f) (x >>= g) := by
  refine Agree.bind (Agree.refl (fun _ => rfl) x) ?_
  rintro a _ rfl
  exact h a

theorem unassign (h : t.Alike U D u) (tag : Sym) : Agree (fun p q => p.1 = q.1 ∧ p.2.Alike U D q.2) (t.unassign tag) (u.unassign tag) := by
  simp only [Tables.unassign, h.assigned, h.remaining]
  refine bind_same _ fun x => bind_same _ fun y => ⟨rfl, ?_⟩
  exact { h with assigned := rfl, remaining := rfl }

theorem count (h : t.Alike U D u) (g : Nat) : getKey t.granuleFree.get? g = getKey u.granuleFree.get? g := by
  simp only [getKey, h.granuleFree]

theorem getWords (h : t.Alike U D u) (g : Nat) : Agree (fun ws ws' => WordsAlike U (D g) (some ws) (some ws'))
    (getKey t.granuleWords g) (getKey u.granuleWords g) := by
  have hg := h.granuleWords g
  unfold getKey
  generalize t.granuleWords g = x at hg
  generalize u.granuleWords g = y at hg
  cases hg with
  | missing => rfl
  | listed hp hf => exact .listed hp hf

theorem pushWord (h : t.Alike U D u) (g addr : Nat) : Agree (Alike U D) (t.pushWord g addr) (u.pushWord g addr) := by
  unfold Tables.pushWord
  rw [h.count]
  refine (h.getWords g).bind fun ws ws' hws => bind_same _ fun c => ?_
  exact { h with granuleWords := h.setWords g (hws.push addr), granuleFree := get?_set h.granuleFree g (c + 1) }

theorem removeWord (h : t.Alike U D u) (g : Nat) {addr : Nat} (ha : U addr = false) :
    Agree (Alike U D) (t.removeWord g addr) (u.removeWord g addr) := by
  unfold Tables.removeWord
  rw [h.count]
  refine (h.getWords g).bind fun ws ws' hws => bind_same _ fun c => ?_
  have herase : Agree (fun xs xs' => WordsAlike U (D g) (some xs) (some xs')) (removeFirst ws addr) (removeFirst ws' addr) := by
    simp only [removeFirst, hws.perm.mem_iff]
    exact Agree.ite (fun _ => hws.erase ha) fun _ => rfl
  refine herase.bind fun xs xs' hxs => ?_
  exact { h with granuleWords := h.setWords g hxs, granuleFree := get?_set h.granuleFree g (c - 1) }

theorem dropGranule (h : t.Alike U D u) (g : Nat) (words : List Nat) (hfree : ∀ ws, u.granuleWords g = some ws → ∀ w ∈ ws, U w = false) :
    Agree (Alike U D) (t.dropGranule g words) (u.dropGranule g words) := by
  simp only [Tables.dropGranule, (h.granuleWords g).isSome, h.granuleFree, h.wordGranule]
  refine Agree.ite (fun _ => ?_) (fun _ => rfl)
  refine { h with
    granuleWords := h.setWords g (.missing ((h.granuleWords g).holds hfree))
    wordGranule := rfl
    granuleFree := fun x => ?_ }
  simp only [Dict.get?_erase, h.granuleFree]

end Tables.Alike

namespace AllocEntry
open Tables

/-- What the undo of an entry relies on, in tables that `U` belongs to already: no word of `U` is put back into use, and a
granule that is given up or rebuilt lists none. -/
def Fits (U : Nat → Bool) (u : Tables) : AllocEntry → Prop
  | .Ws _ addr _ true => ∀ g ws, u.claimOf addr = some g → u.granuleWords g = some ws → ∀ w ∈ ws, U w = false
  | .Fs _ addr _ => U addr = false
  | .U tag addr _ path => tag.isVec = false →
      if path = some .rev then u.granuleWords (addr - addr % VLEN) = none else U addr = false
  | _ => True

/-- Undoing looks the granules up and never iterates them. -/
theorem undo_alike (rc : Sym → Option Int) {U : Nat → Bool} {D : Nat → Prop} {e : AllocEntry} {t u : Tables} (h : t.Alike U D u)
    (he : e.Fits U u) : Agree (Alike U D) (e.undo rc t) (e.undo rc u) := by
  cases e with
  | W tag addr nm =>
      refine Agree.bind (h.unassign tag) fun p q hpq => ?_
      exact (hpq.2.push addr).setName addr nm
  | Ws tag addr nm claimed =>
      refine Agree.bind_of (h.unassign tag) fun p q hq hpq => ?_
      have hsame : q.2.claimOf = u.claimOf ∧ q.2.granuleWords = u.granuleWords := by
        obtain ⟨x, -, hq⟩ := bind_eq_ok.mp hq
        obtain ⟨y, -, hq⟩ := bind_eq_ok.mp hq
        cases hq
        exact ⟨rfl, rfl⟩
      obtain ⟨b, v⟩ := p
      obtain ⟨c, w⟩ := q
      dsimp only at hsame hpq ⊢
      cases claimed with
      | true =>
          rw [if_pos rfl, if_pos rfl, hpq.2.claimOf]
          refine Agree.bind_of (Agree.refl (R := fun x y => x = y) (fun _ => rfl) (popKey w.claimOf addr)) ?_
          rintro x _ hx rfl
          have hco : u.claimOf addr = some x.1 := by
            rw [hsame.1] at hx
            unfold popKey at hx
            split at hx
            · cases hx
            · next hg =>
                cases hx
                exact hg
          have hdrop := (hpq.2.withClaimOf x.2).dropGranule x.1 (granuleRange x.1) fun ws hws => he x.1 ws hco (hsame.2 ▸ hws)
          exact hdrop.bind fun v w hvw => (hvw.push x.1).setName addr nm
      | false =>
          rw [if_neg (by simp), if_neg (by simp), hpq.2.wordGranule]
          refine Alike.bind_same _ fun g => ?_
          exact Agree.bind (hpq.2.pushWord g addr) fun v w hvw => hvw.setName addr nm
  | R tag =>
      simp only [undo, h.remaining]
      exact Alike.bind_same _ fun n => { h with remaining := rfl }
  | F tag addr =>
      simp only [undo, h.freeVec]
      exact Alike.bind_same _ fun fv => (h.withFree fv).assign tag addr 0
  | Fs tag addr wasClaim =>
      simp only [undo, h.wordGranule]
      refine Alike.bind_same _ fun g => Agree.bind (h.removeWord g he) fun v w hvw => ?_
      cases wasClaim with
      | false => exact hvw.assign tag addr 0
      | true => exact (hvw.setClaim addr g).assign tag addr 0
  | U tag addr wasClaim path =>
      have hlast : ∀ {v w : Tables}, v.Alike U D w → Agree (Alike U D) (getKey rc tag >>= fun n => .ok (v.assign tag addr n))
          (getKey rc tag >>= fun n => .ok (w.assign tag addr n)) :=
        fun hvw => Alike.bind_same _ fun n => Agree.ok_iff.mpr (hvw.assign tag addr n)
      simp only [Fits] at he
      cases hv : tag.isVec with
      | true =>
          simp only [undo, hv, if_true, h.freeVec]
          exact Alike.bind_same _ fun fv => hlast (h.withFree fv)
      | false =>
          have he := he hv
          by_cases hpath : path = some .rev
          · rw [if_pos hpath] at he
            simp only [undo, hv, hpath, Bool.false_eq_true, if_false, if_true, h.freeVec]
            refine Alike.bind_same _ fun fv => hlast ?_
            have hD : D (addr - addr % VLEN) := (h.granuleWords _).holds fun ws hws => by simp [he] at hws
            exact { h.setClaim addr (addr - addr % VLEN) with
              freeVec := rfl
              wordGranule := by rw [h.wordGranule]
              granuleWords := h.setWords _ (.refl U hD _)
              granuleFree := Alike.get?_set h.granuleFree _ _ }
          · rw [if_neg hpath] at he
            simp only [undo, hv, hpath, Bool.false_eq_true, if_false, h.wordGranule]
            refine Alike.bind_same _ fun g => Agree.bind (h.removeWord g he) fun v w hvw => ?_
            cases wasClaim with
            | false => exact hlast hvw
            | true => exact hlast (hvw.setClaim addr g)

end AllocEntry

namespace Tables

variable {t : Tables}

def isFree (t : Tables) (w : Nat) : Bool := ((t.wordGranule w).bind t.granuleWords).any (·.contains w)

theorem Inv.isFree (h : t.Inv) {g w : Nat} {ws : List Nat} (hws : t.granuleWords g = some ws) (hw : w ∈ ws) : t.isFree w = true := by
  have hg : t.Claimed g := h.words_claimed (by rw [hws]; rfl)
  obtain ⟨c, hc⟩ := Option.isSome_iff_exists.mp hg
  obtain ⟨ws', hws', -, -, hm⟩ := h.words hc
  obtain rfl := Option.some.inj (hws.symm.trans hws')
  have hwg : t.wordGranule w = some g := h.word_granule.mpr ⟨hg, ((hm w).mp hw).1⟩
  simp [Tables.isFree, hwg, hws, hw]

/-- The home of a scalar is not free, and neither is a word outside every claimed granule. -/
theorem Inv.not_isFree (h : t.Inv) {w : Nat} (hw : t.WordAt w ∨ t.wordGranule w = none) : t.isFree w = false := by
  rw [Bool.eq_false_iff]
  intro hfree
  simp only [Tables.isFree, Option.any_eq_true, Option.bind_eq_some_iff, List.contains_iff_mem] at hfree
  obtain ⟨ws, ⟨g, hg, hws⟩, hmem⟩ := hfree
  obtain ⟨c, hc⟩ := Option.isSome_iff_exists.mp (h.word_granule.mp hg).1
  obtain ⟨ws', hws', -, -, hm⟩ := h.words hc
  obtain rfl := Option.some.inj (hws.symm.trans hws')
  rcases hw with hw | hw
  · exact ((hm w).mp hmem).2 hw
  · rw [hg] at hw
    cases hw

/-- The free words of a granule that misses just one word are the granule without it. -/
theorem Inv.words_perm (h : t.Inv) {s : Sym} {addr g : Nat} {ws : List Nat} (hv : s.isVec = false)
    (hs : t.assigned s = some addr) (hg : t.wordGranule addr = some g) (hc : t.granuleFree.get? g = some 7)
    (hws : t.granuleWords g = some ws) : ((granuleRange g).filter (· ≠ addr)).Perm ws := by
  obtain ⟨ws', hws', hl, hn, hm⟩ := h.words hc
  obtain rfl := Option.some.inj (hws.symm.trans hws')
  have haddr : addr ∈ granuleRange g := mem_granuleRange.mpr (h.word_granule.mp hg).2
  have herase : (granuleRange g).filter (· ≠ addr) = (granuleRange g).erase addr := by
    rw [(nodup_granuleRange g).erase_eq_filter]
    refine List.filter_congr fun x _ => ?_
    by_cases hx : x = addr <;> simp [hx]
  have hsub : ws ⊆ (granuleRange g).erase addr := by
    intro w hw
    obtain ⟨hr, hfree⟩ := (hm w).mp hw
    refine (List.mem_erase_of_ne ?_).mpr (mem_granuleRange.mpr hr)
    rintro rfl
    exact hfree ⟨s, hv, hs⟩
  have hlen : ((granuleRange g).erase addr).length ≤ ws.length := by
    rw [List.length_erase_of_mem haddr, hl]
    simp [granuleRange, VLEN]
  rw [herase]
  exact ((List.subperm_of_subset hn hsub).perm_of_length_le hlen).symm

end Tables

end Vliw
