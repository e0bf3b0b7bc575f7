import VliwKernel.Regalloc.WordOrder
import Mathlib.Data.List.Sort

/-!
# Rolling back a window of allocator operations

The undo of a reversed claim rebuilds the granule's free words in ascending order, whatever their order was. Every other
entry is undone exactly, and a word that was taken or returned in the window finds its place again as the undo goes on. So
a window is undone exactly when each reversal in it meets the words that were free all along in ascending order.
-/

namespace Vliw

namespace RegisterAllocator

/-- The granule whose claim an `unwrite` of the tag would reverse. -/
def reversedClaim (rc : Sym → Option Int) (a : RegisterAllocator) (s : Sym) : Option Nat :=
  if s.isVec = false ∧ a.tab.val.remaining s = rc s then
    ((a.tab.val.assigned s).bind a.tab.val.claimOf).filter fun g => a.tab.val.granuleFree.get? g = some (VLEN - 1)
  else none

/-- The words of `U` that are still free after an operation. -/
def stillFree (U : Nat → Bool) (b : RegisterAllocator) (w : Nat) : Bool := U w && b.tab.val.isFree w

end RegisterAllocator

section condition
variable (rc : Sym → Option Int) (g : Nat)

/-- If the operation is an `unwrite` that reverses the claim of `g`, the words of `U` that are free in `g` ascend. -/
def AllocOp.AscendingReversal (U : Nat → Bool) (a : RegisterAllocator) : AllocOp → Prop
  | .unwrite s => a.reversedClaim rc s = some g → ∀ ws, a.tab.val.granuleWords g = some ws → (ws.filter U).Pairwise (· < ·)
  | _ => True

/-- In every reversal of the claim of `g`, the words ascend that were in `U` at the start and have been free ever since. -/
def AllocOp.Ascending : (Nat → Bool) → RegisterAllocator → List AllocOp → Prop
  | _, _, [] => True
  | U, a, op :: ops => op.AscendingReversal rc g U a ∧ ∀ b, op.run rc a = .ok b → Ascending (b.stillFree U) b ops

end condition

def AllocOp.InWindow (a : RegisterAllocator) (op : AllocOp) : Prop := op.Enabled a ∧ op ≠ .collect

/-- A list is the ascending one among its permutations just when it ascends. -/
theorem eq_iff_ascending {xs ws : List Nat} (hperm : xs.Perm ws) (hxs : xs.Pairwise (· < ·)) : xs = ws ↔ ws.Pairwise (· < ·) :=
  ⟨fun h => h ▸ hxs, fun hws => hperm.eq_of_pairwise (fun _ _ _ _ hxy hyx => absurd hxy (Nat.lt_asymm hyx)) hxs hws⟩

namespace RegisterAllocator
open Tables AllocEntry

variable {rc : Sym → Option Int} {a b : RegisterAllocator} {U V : Nat → Bool} {D : Nat → Prop} {s : Logged Tables AllocEntry}

/-- One entry that undoes its mutation, up to what is left to show of the tables it leads to. -/
theorem rewinds_record {u x : Tables} {e : AllocEntry} {E : Nat → Prop} (hV : ∀ g ws, u.granuleWords g = some ws → ∀ w ∈ ws, V w = U w)
    (he : e.Fits U u) (hx : e.undo rc u = .ok x) (hlast : ∀ t v : Tables, t.Alike U E u → v.Alike U E x → v.Alike U D s.val) :
    Logged.Rewinds (AllocEntry.undo rc) (Alike U D) (Alike V E) s (s.record u e) := by
  refine .of_record fun t ht => ?_
  have ht' : t.Alike U E u := ht.reindex hV
  obtain ⟨v, hv, halike⟩ := (AllocEntry.undo_alike rc ht' he).of_ok hx
  exact ⟨v, hv, hlast t v ht' halike⟩

theorem rewinds_undo {u : Tables} {e : AllocEntry} (hV : ∀ g ws, u.granuleWords g = some ws → ∀ w ∈ ws, V w = U w)
    (he : e.Fits U u) (hx : e.undo rc u = .ok s.val) : Logged.Rewinds (AllocEntry.undo rc) (Alike U D) (Alike V D) s (s.record u e) :=
  rewinds_record hV he hx fun _ _ _ hv => hv

theorem stillFree_listed (h : b.tab.val.Inv) (U : Nat → Bool) (g : Nat) (ws : List Nat) (hws : b.tab.val.granuleWords g = some ws)
    (w : Nat) (hw : w ∈ ws) : stillFree U b w = U w := by
  rw [stillFree, h.isFree hws hw, Bool.and_true]

theorem unlisted (h : a.tab.val.Inv) (hU : ∀ w, U w = true → a.tab.val.isFree w = true) {w : Nat}
    (hw : a.tab.val.WordAt w ∨ a.tab.val.wordGranule w = none) : U w = false := by
  rw [Bool.eq_false_iff]
  intro hUw
  have := hU w hUw
  rw [h.not_isFree hw] at this
  cases this

theorem rewinds_write (h : a.tab.val.Inv) (hU : ∀ w, U w = true → a.tab.val.isFree w = true) {s : Sym} {n : Int} {addr : Nat}
    (hs : a.tab.val.assigned s = none) (hw : Wrote rc a s n addr b) :
    Logged.Rewinds (AllocEntry.undo rc) (Alike U D) (Alike (stillFree U b) D) a.tab b.tab := by
  obtain ⟨claimed, u, htake, hb⟩ := hw.step
  have hlisted := stillFree_listed hw.inv U
  rw [hb] at hlisted ⊢
  refine rewinds_undo hlisted ?_ (undo_write h hs htake)
  cases htake with
  | vec hv _ => simp [writeEntry, hv, Fits]
  | word hv _ _ => simp [writeEntry, hv, Fits]
  | @claim g rest hv hf =>
      have hfree : ∀ w ∈ granuleRange g, U w = false := fun w hw => unlisted h hU (.inr ((h.of_free hf).2.2 w hw).1)
      simp only [writeEntry, hv, Bool.false_eq_true, if_false, Fits]
      intro g' ws hg' hws w hw
      simp only [setName, Tables.assign, claimWord, Function.update_self, Option.some.injEq] at hg' hws
      subst hg'
      rw [Function.update_self, Option.some.injEq] at hws
      subst hws
      exact hfree w (by rw [granuleRange_eq]; exact List.mem_append_left _ hw)

theorem rewinds_read (h : a.tab.val.Inv) (hU : ∀ w, U w = true → a.tab.val.isFree w = true) {s : Sym} {n : Int} {addr : Nat}
    (hs : a.tab.val.assigned s = some addr) (hn : a.tab.val.remaining s = some n) (hb : a.read s = .ok b) (hbinv : b.tab.val.Inv) :
    Logged.Rewinds (AllocEntry.undo rc) (Alike U D) (Alike (stillFree U b) D) a.tab b.tab := by
  set t := a.tab.val with ht
  have hlisted := stillFree_listed hbinv U
  by_cases hlast : n = 1
  · subst hlast
    set t₁ : Tables := { t with remaining := Function.update t.remaining s (some 0) } with ht₁
    have h₁ : t₁.Inv := Inv.setRemaining h (by rw [hn]; rfl) _
    have hs₁ : t₁.assigned s = some addr := hs
    have hr₁ : t₁.remaining s = some 0 := by simp [ht₁]
    have hR : Logged.Rewinds (AllocEntry.undo rc) (Alike U D) (Alike U D) a.tab (a.tab.record t₁ (.R s)) :=
      rewinds_undo (fun _ _ _ _ _ => rfl) trivial (undo_read hn)
    refine hR.trans ?_
    simp only [RegisterAllocator.read, ← ht, getKey, hn, bind, Except.bind, sub_self, if_true, Logged.record_val, ← ht₁,
      h₁.unassign_ok hs₁] at hb
    cases hv : s.isVec with
    | true =>
        simp only [hv, if_true, Except.ok.injEq] at hb
        subst hb
        exact rewinds_undo hlisted trivial (undo_read_vec h₁ hs₁ hr₁ hv)
    | false =>
        obtain ⟨g, c, ws, hg, hc, hws⟩ := h₁.granule_of_wordAt ⟨s, hv, hs₁⟩
        simp only [hv, Bool.false_eq_true, if_false, hg, pushWord, getKey, hc, hws, bind, Except.bind, Except.ok.injEq] at hb
        subst hb
        refine rewinds_undo hlisted ?_ (undo_read_word rc h₁ hs₁ hr₁ hv hg hc hws)
        exact unlisted h hU (.inl ⟨s, hv, hs⟩)
  · have hlast' : n - 1 ≠ 0 := by omega
    simp only [RegisterAllocator.read, ← ht, getKey, hn, bind, Except.bind, hlast', if_false, Except.ok.injEq] at hb
    subst hb
    exact rewinds_undo hlisted trivial (undo_read hn)

theorem reversedClaim_iff {s : Sym} {g : Nat} : a.reversedClaim rc s = some g ↔ s.isVec = false ∧ a.tab.val.remaining s = rc s ∧
    ∃ addr, a.tab.val.assigned s = some addr ∧ a.tab.val.claimOf addr = some g ∧ a.tab.val.granuleFree.get? g = some (VLEN - 1) := by
  simp only [reversedClaim, Option.ite_none_right_eq_some, Option.filter_eq_some_iff, Option.bind_eq_some_iff, decide_eq_true_eq]
  constructor
  · rintro ⟨⟨hv, hr⟩, ⟨addr, hs, hco⟩, hc⟩
    exact ⟨hv, hr, addr, hs, hco, hc⟩
  · rintro ⟨hv, hr, addr, hs, hco, hc⟩
    exact ⟨⟨hv, hr⟩, ⟨addr, hs, hco⟩, hc⟩

/-- An undone reversal restores the words of `U` in order just when the reversal met them in ascending order. -/
theorem rewinds_reversal (h : a.tab.val.Inv) {s : Sym} {n : Int} {addr g : Nat} {ws : List Nat}
    (hs : a.tab.val.assigned s = some addr) (hr : a.tab.val.remaining s = some n) (hn : rc s = some n) (hv : s.isVec = false)
    (hco : a.tab.val.claimOf addr = some g) (hc : a.tab.val.granuleFree.get? g = some 7) (hws : a.tab.val.granuleWords g = some ws)
    (hV : ∀ k xs, ((a.tab.val.returned s addr g 7 ws).dropped g (g :: a.tab.val.freeVec)).granuleWords k = some xs → ∀ w ∈ xs, V w = U w) :
    Logged.Rewinds (AllocEntry.undo rc) (Alike U fun k => D k ∧ (AllocOp.unwrite s).AscendingReversal rc k U a) (Alike V D) a.tab
      (a.tab.record ((a.tab.val.returned s addr g 7 ws).dropped g (g :: a.tab.val.freeVec))
        (.U s addr (a.tab.val.claimOf addr).isSome (some .rev))) := by
  have hg := (h.claim_word hco).2
  obtain ⟨hG, hlo, hhi⟩ := h.word_granule.mp hg
  obtain ⟨⟨k, hk⟩, -, -⟩ := h.claimed_granule hG
  have hga : addr - addr % VLEN = g := by
    simp only [VLEN] at *
    omega
  have hperm := h.words_perm hv hs hg hc hws
  have hsorted : (((granuleRange g).filter (· ≠ addr)).filter U).Pairwise (· < ·) :=
    ((List.pairwise_lt_range' (s := g) (n := VLEN)).filter _).filter _
  have hord : (AllocOp.unwrite s).AscendingReversal rc g U a ↔ ((granuleRange g).filter (· ≠ addr)).filter U = ws.filter U := by
    rw [eq_iff_ascending (hperm.filter U) hsorted]
    refine ⟨fun hasc => hasc (reversedClaim_iff.mpr ⟨hv, hr.trans hn.symm, addr, hs, hco, hc⟩) ws hws, fun hasc _ ws' hws' => ?_⟩
    cases hws.symm.trans hws'
    exact hasc
  refine rewinds_record hV ?_ (undo_unwrite_rev h hs hr hn hv hco hc _) fun t v ht hv' => ?_
  · intro _
    rw [if_pos rfl, hga]
    exact Function.update_self _ _ _
  · have hD : D g := (ht.granuleWords g).holds fun xs hxs => by simp [dropped] at hxs
    refine { hv' with granuleWords := fun k => ?_, granuleFree := fun k => ?_ }
    · by_cases hkg : k = g
      · subst hkg
        have hwords := hv'.granuleWords k
        simp only [Function.update_self] at hwords
        rw [hws]
        generalize v.granuleWords k = x at hwords
        cases hwords with
        | listed hp hf =>
            refine .listed (hp.trans hperm) ?_
            rw [hf.mp hD, hord]
            exact and_iff_right hD
      · have hwords := hv'.granuleWords k
        simp only [Function.update_of_ne hkg] at hwords
        refine hwords.congr (iff_self_and.mpr fun _ => ?_)
        intro hrev
        obtain ⟨-, -, addr', hs', hco', -⟩ := reversedClaim_iff.mp hrev
        cases hs.symm.trans hs'
        exact absurd (Option.some.inj (hco'.symm.trans hco)) hkg
    · rw [hv'.granuleFree, Dict.get?_set, Dict.get?_erase]
      split <;> simp_all

theorem rewinds_unwrite (h : a.tab.val.Inv) (hU : ∀ w, U w = true → a.tab.val.isFree w = true) {s : Sym} (hb : a.unwrite rc s = .ok b)
    (hbinv : b.tab.val.Inv) :
    Logged.Rewinds (AllocEntry.undo rc) (Alike U fun g => D g ∧ (AllocOp.unwrite s).AscendingReversal rc g U a)
      (Alike (stillFree U b) D) a.tab b.tab := by
  have hlisted := stillFree_listed hbinv U
  by_cases heff : ∃ addr n, a.tab.val.assigned s = some addr ∧ a.tab.val.remaining s = some n ∧ rc s = some n
  · obtain ⟨addr, n, hs, hr, hn⟩ := heff
    obtain ⟨p, u, hu, hok⟩ := unwrite_ok h hs hr hn
    cases hok.symm.trans hb
    have hnothing : (∀ g, a.reversedClaim rc s ≠ some g) → ∀ {t : Tables}, t.Alike U D a.tab.val →
        t.Alike U (fun g => D g ∧ (AllocOp.unwrite s).AscendingReversal rc g U a) a.tab.val :=
      fun hnot t ht => ht.congr fun g => iff_self_and.mpr fun _ hrev => absurd hrev (hnot g)
    cases hu with
    | vec hv =>
        refine rewinds_record hlisted ?_ (undo_unwrite_vec hs hr hn hv _) fun _ v _ hv' => hnothing ?_ hv'
        · simp [Fits, hv]
        · intro g hrev
          simp [reversedClaim, hv] at hrev
    | @ret g c ws _ hg hc hws hret =>
        next hv =>
        refine rewinds_record hlisted ?_ (undo_unwrite_ret h hs hr hn hv hg hc hws) fun _ v _ hv' => hnothing ?_ hv'
        · intro _
          rw [if_neg (by simp)]
          exact unlisted h hU (.inl ⟨s, hv, hs⟩)
        · intro g' hrev
          obtain ⟨-, -, addr', hs', hco, hc'⟩ := reversedClaim_iff.mp hrev
          cases hs.symm.trans hs'
          cases hg.symm.trans (h.claim_word hco).2
          exact hret ⟨hco, Option.some.inj (hc.symm.trans hc')⟩
    | rev hv hco hc hws => exact rewinds_reversal h hs hr hn hv hco hc hws hlisted
  · rcases unwrite_cases h hb with rfl | ⟨addr, n, p, u, hs, hr, hn, -, -⟩
    · refine .of_le fun t ht => (ht.reindex hlisted).congr fun g => iff_self_and.mpr fun _ => ?_
      intro hrev
      obtain ⟨-, hr, addr, hs, -⟩ := reversedClaim_iff.mp hrev
      have hsome := h.remaining_assigned s
      rw [hs, Option.isSome_some, Option.isSome_iff_exists] at hsome
      obtain ⟨n, hn⟩ := hsome
      exact absurd ⟨addr, n, hs, hn, hr ▸ hn⟩ heff
    · exact absurd ⟨addr, n, hs, hr, hn⟩ heff

/-- Undoing an operation of a window gives the words that were free all along their order back, unless the operation is a reversal
that meets them out of order. -/
theorem op_rewinds (h : a.tab.val.Inv) (hU : ∀ w, U w = true → a.tab.val.isFree w = true) {op : AllocOp} (hop : op.InWindow a)
    (hb : op.run rc a = .ok b) :
    Logged.Rewinds (AllocEntry.undo rc) (Alike U fun g => D g ∧ op.AscendingReversal rc g U a) (Alike (stillFree U b) D) a.tab b.tab := by
  have hbinv := Inv.op h hop.1 hb
  cases op with
  | write s =>
      simp only [AllocOp.AscendingReversal, and_true]
      obtain ⟨⟨addr, b'⟩, hw, hb⟩ := bind_eq_ok.mp hb
      cases hb
      rcases write_cases h hop.1 hw with ⟨-, rfl⟩ | ⟨n, hs, -, hw⟩
      · exact .of_le fun t ht => ht.reindex (stillFree_listed hbinv U)
      · exact rewinds_write h hU hs hw
  | read s =>
      simp only [AllocOp.AscendingReversal, and_true]
      obtain ⟨hs, n, hn, -⟩ := hop.1
      obtain ⟨addr, hs⟩ := Option.isSome_iff_exists.mp hs
      exact rewinds_read h hU hs hn hb hbinv
  | unwrite s => exact rewinds_unwrite h hU hb hbinv
  | collect => exact absurd rfl hop.2

theorem run_rewinds {ops : List AllocOp} (h : a.tab.val.Inv) (hU : ∀ w, U w = true → a.tab.val.isFree w = true)
    (hr : AllocRun rc (fun a op => op.InWindow a) a ops b) :
    Logged.Rewinds (AllocEntry.undo rc) (Alike U fun g => AllocOp.Ascending rc g U a ops) Eq a.tab b.tab := by
  induction hr generalizing U with
  | nil a => exact .of_le fun t ht => ht ▸ Alike.refl U (fun _ => trivial) _
  | @cons a b c op ops hp hstep _ ih =>
      have hrest := ih (Inv.op h hp.1 hstep) (U := stillFree U b) fun w hw => (Bool.and_eq_true_iff.mp hw).2
      have hcons : ∀ g, AllocOp.Ascending rc g (stillFree U b) b ops ∧ op.AscendingReversal rc g U a ↔
          AllocOp.Ascending rc g U a (op :: ops) := by
        intro g
        rw [AllocOp.Ascending, and_comm]
        refine and_congr_right fun _ => ⟨fun hrest b' hb' => ?_, fun hall => hall b hstep⟩
        cases hstep.symm.trans hb'
        exact hrest
      simpa only [hcons] using (op_rewinds h hU hp hstep).trans hrest

/-- When all listed words count, alike tables are the same just when each granule keeps its order. -/
theorem same_iff_alike {t u : Tables} (h : t.Alike U D u) (hU : ∀ g ws, u.granuleWords g = some ws → ∀ w ∈ ws, U w = true) :
    t.Same u ↔ ∀ g, D g := by
  have hwords : ∀ g, t.granuleWords g = u.granuleWords g ↔ D g := by
    intro g
    have hg := h.granuleWords g
    have hUg := hU g
    generalize t.granuleWords g = x at hg
    generalize u.granuleWords g = y at hg hUg
    cases hg with
    | missing hD => exact iff_of_true rfl hD
    | @listed ws ws' hp hf =>
        rw [hf, List.filter_eq_self.mpr (hUg ws' rfl), List.filter_eq_self.mpr fun w hw => hUg ws' rfl w (hp.subset hw), Option.some.injEq]
  refine ⟨fun hs g => (hwords g).mp (by rw [hs.granuleWords]), fun hD => ?_⟩
  exact { h with granuleWords := funext fun g => (hwords g).mpr (hD g) }

/-- Rolling a window back never raises, and is exact just when each reversal of a claim in it meets the words of the granule in
ascending order that have been free since the checkpoint. -/
theorem rollback_window (rc : Sym → Option Int) (before window : List AllocOp) (a b : RegisterAllocator)
    (hbefore : AllocRun rc (fun a op => op.Enabled a) .init before a)
    (hwindow : AllocRun rc (fun a op => op.InWindow a) a.checkpoint.2 window b) :
    ∃ c, b.rollback rc a.checkpoint.1 = .ok c ∧
      (c.tab.val.Same a.tab.val ↔ ∀ g, AllocOp.Ascending rc g a.tab.val.isFree a.checkpoint.2 window) := by
  have h := Inv.run (fun _ _ hp => hp) Inv.init hbefore
  have hback := (run_rewinds (a := a.checkpoint.2) (U := a.tab.val.isFree) h (fun _ hw => hw) hwindow).reverts
  obtain ⟨v, hv, hroll⟩ := Logged.rollback_of_reverts PyErr.assertion hback
  refine ⟨{ b with tab := ⟨v, if a.tab.checkpoint.1 = 0 then none else a.tab.checkpoint.2.log⟩ },
    by simp only [rollback, checkpoint, hroll, bind_ok], same_iff_alike hv fun g ws hws w hw => h.isFree hws hw⟩

/-- Two scalars share the granule of a third one and are freed lowest word first, so its free
words end `.., 14, 13`. -/
def fragmented : List AllocOp :=
  [.write ⟨"x", false⟩, .write ⟨"y", false⟩, .write ⟨"z", false⟩, .read ⟨"y", false⟩, .read ⟨"z", false⟩]

/-- Reversing the claim of the third scalar inside a window and rolling the window back sorts the
free words of the granule. -/
theorem rollback_sorts_words : ∃ a b c : RegisterAllocator,
    AllocRun (fun _ => some 1) (fun a op => op.Enabled a) .init fragmented a ∧
    AllocRun (fun _ => some 1) (fun a op => op.InWindow a) a.checkpoint.2 [.unwrite ⟨"x", false⟩] b ∧
    b.rollback (fun _ => some 1) a.checkpoint.1 = .ok c ∧
    a.tab.val.granuleWords 8 = some [8, 9, 10, 11, 12, 14, 13] ∧
    c.tab.val.granuleWords 8 = some [8, 9, 10, 11, 12, 13, 14] ∧ ¬ c.tab.val.Same a.tab.val := by
  have hrun : (do
      let a ← AllocOp.runAll? (fun _ => some 1) fragmented .init
      let b ← AllocOp.runAll? (fun _ => some 1) [.unwrite ⟨"x", false⟩] a.checkpoint.2
      let c ← (b.rollback (fun _ => some 1) a.checkpoint.1).toOption
      some (a.tab.val.granuleWords 8, c.tab.val.granuleWords 8)) =
      some (some [8, 9, 10, 11, 12, 14, 13], some [8, 9, 10, 11, 12, 13, 14]) := by decide +kernel
  obtain ⟨a, ha, hrun⟩ := Option.bind_eq_some_iff.mp hrun
  obtain ⟨b, hb, hrun⟩ := Option.bind_eq_some_iff.mp hrun
  obtain ⟨c, hc, hwords⟩ := Option.bind_eq_some_iff.mp hrun
  obtain ⟨ha8, hc8⟩ := Prod.mk.inj (Option.some.inj hwords)
  refine ⟨a, b, c, .of_runAll? ha, (AllocRun.of_runAll? hb).mono fun a op hop he => ⟨he, ?_⟩, ?_, ha8, hc8, ?_⟩
  · rintro rfl
    simp at hop
  · cases hr : b.rollback (fun _ => some 1) a.checkpoint.1 with
    | error e => simp [hr, Except.toOption] at hc
    | ok d => simpa [hr, Except.toOption] using hc
  · intro hsame
    have := hsame.granuleWords
    rw [funext_iff] at this
    simpa [ha8, hc8] using this 8

/-- A window that fragments the granule itself and reverses its claim is rolled back exactly: the words that were free at the
checkpoint ascend, wherever the two words stand that the window returned. -/
theorem rollback_window_speculative : ∃ a m b c : RegisterAllocator,
    AllocRun (fun _ => some 1) (fun a op => op.InWindow a) a.checkpoint.2 [.read ⟨"y", false⟩, .read ⟨"z", false⟩] m ∧
    m.reversedClaim (fun _ => some 1) ⟨"x", false⟩ = some 8 ∧ m.tab.val.granuleWords 8 = some [8, 9, 10, 11, 12, 14, 13] ∧
    (AllocOp.unwrite ⟨"x", false⟩).run (fun _ => some 1) m = .ok b ∧
    b.rollback (fun _ => some 1) a.checkpoint.1 = .ok c ∧ c.tab.val.Same a.tab.val := by
  have hrun : (do
      let a ← AllocOp.runAll? (fun _ => some 1) [.write ⟨"x", false⟩, .write ⟨"y", false⟩, .write ⟨"z", false⟩] .init
      let m₁ ← AllocOp.runAll? (fun _ => some 1) [.read ⟨"y", false⟩] a.checkpoint.2
      let m ← AllocOp.runAll? (fun _ => some 1) [.read ⟨"z", false⟩] m₁
      let _ ← AllocOp.runAll? (fun _ => some 1) [.unwrite ⟨"x", false⟩] m
      some (m.reversedClaim (fun _ => some 1) ⟨"x", false⟩, m.tab.val.granuleWords 8,
        (m.tab.val.granuleWords 8).map (·.filter (m.stillFree (m₁.stillFree a.tab.val.isFree))))) =
      some (some 8, some [8, 9, 10, 11, 12, 14, 13], some [8, 9, 10, 11, 12]) := by decide +kernel
  obtain ⟨a, ha, hrun⟩ := Option.bind_eq_some_iff.mp hrun
  obtain ⟨m₁, hm₁, hrun⟩ := Option.bind_eq_some_iff.mp hrun
  obtain ⟨m, hm, hrun⟩ := Option.bind_eq_some_iff.mp hrun
  obtain ⟨b, hb, hrun⟩ := Option.bind_eq_some_iff.mp hrun
  obtain ⟨hrev, hrun⟩ := Prod.mk.inj (Option.some.inj hrun)
  obtain ⟨hwords, hfree⟩ := Prod.mk.inj hrun
  obtain _ | ⟨hp₁, hstep₁, ⟨⟩⟩ := AllocRun.of_runAll? hm₁
  obtain _ | ⟨hp, hstep, ⟨⟩⟩ := AllocRun.of_runAll? hm
  obtain _ | ⟨he, hback, ⟨⟩⟩ := AllocRun.of_runAll? hb
  have hwindow : AllocRun (fun _ => some 1) (fun a op => op.InWindow a) a.checkpoint.2 _ b :=
    .cons ⟨hp₁, by simp⟩ hstep₁ (.cons ⟨hp, by simp⟩ hstep (.cons ⟨he, by simp⟩ hback (.nil b)))
  obtain ⟨c, hc, hsame⟩ := rollback_window _ _ _ a b (.of_runAll? ha) hwindow
  refine ⟨a, m, b, c, .cons ⟨hp₁, by simp⟩ hstep₁ (.cons ⟨hp, by simp⟩ hstep (.nil m)), hrev, hwords, hback, hc, hsame.mpr ?_⟩
  refine fun g => ⟨trivial, fun m₁' hm₁' => ⟨trivial, fun m' hm' => ⟨fun hg ws hws => ?_, fun _ _ => trivial⟩⟩⟩
  cases hstep₁.symm.trans hm₁'
  cases hstep.symm.trans hm'
  cases hrev.symm.trans hg
  rw [hws, Option.map_some, Option.some.injEq] at hfree
  rw [hfree]
  decide

end RegisterAllocator
end Vliw
