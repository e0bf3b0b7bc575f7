/-!
# Undo journals

A value with an optional journal of the mutations made to it since it was opened.
`checkpoint` opens the journal and hands out its length as a token; `rollback token`
undoes the entries past the token, newest first, and closes the journal when the token
is zero. The rules below reduce "a whole window is undone exactly" to "each logged
mutation is undone exactly", up to any relation that undoing respects, or up to relations
that change from one state to the next.
-/

namespace Vliw

/-- `log` keeps the newest entry first; `none` is a closed journal, which records nothing. -/
@[ext]
structure Logged (σ ε : Type) where
  val : σ
  log : Option (List ε)

namespace Logged

variable {σ ε E : Type}

def record (s : Logged σ ε) (v : σ) (e : ε) : Logged σ ε := ⟨v, s.log.map (e :: ·)⟩

@[simp] theorem record_val (s : Logged σ ε) (v : σ) (e : ε) : (s.record v e).val = v := rfl

/-- Open the journal if it is closed, and return its length. -/
def checkpoint (s : Logged σ ε) : Nat × Logged σ ε :=
  ((s.log.getD []).length, ⟨s.val, some (s.log.getD [])⟩)

@[simp] theorem checkpoint_val (s : Logged σ ε) : s.checkpoint.2.val = s.val := rfl

variable (undo : ε → σ → Except E σ)

def undoAll : List ε → σ → Except E σ
  | [], v => .ok v
  | e :: es, v => do undoAll es (← undo e v)

theorem undoAll_append (es fs : List ε) (v : σ) :
    undoAll undo (es ++ fs) v = undoAll undo es v >>= undoAll undo fs := by
  induction es generalizing v with
  | nil => rfl
  | cons e es ih =>
      simp only [List.cons_append, undoAll]
      cases undo e v with
      | error err => rfl
      | ok w => exact ih w

/-- `while len(log) > token`: undo and drop the newest entry. -/
def unwind (token : Nat) : List ε → σ → Except E (List ε × σ)
  | [], v => .ok ([], v)
  | e :: es, v => if token < es.length + 1 then do unwind token es (← undo e v) else .ok (e :: es, v)

/-- `closed` is what a rollback without an open journal raises. -/
def rollback (closed : E) (token : Nat) (s : Logged σ ε) : Except E (Logged σ ε) :=
  match s.log with
  | none => .error closed
  | some log => do
      let (log, v) ← unwind undo token log s.val
      .ok ⟨v, if token = 0 then none else some log⟩

theorem unwind_append (new old : List ε) (v : σ) :
    unwind undo old.length (new ++ old) v = (undoAll undo new v).map (Prod.mk old) := by
  induction new generalizing v with
  | nil =>
      cases old with
      | nil => rfl
      | cons e es => simp [unwind, undoAll, Except.map]
  | cons e es ih =>
      simp only [List.cons_append, unwind, List.length_append, undoAll]
      rw [if_pos (by omega)]
      cases undo e v with
      | error err => rfl
      | ok w => exact ih w

/-- From `t` on, the entries added since `s` bring back the value of `s` up to `R`. -/
def Reverts (R : σ → σ → Prop) (s t : Logged σ ε) : Prop :=
  ∃ new, t.log = s.log.map (new ++ ·) ∧ ∃ v, undoAll undo new t.val = .ok v ∧ R v s.val

variable {undo} {R : σ → σ → Prop}

theorem Reverts.refl (hR : ∀ v, R v v) (s : Logged σ ε) : Reverts undo R s s := by
  refine ⟨[], ?_, s.val, rfl, hR _⟩
  cases s.log <;> rfl

theorem Reverts.of_record {s : Logged σ ε} {v w : σ} {e : ε} (h : undo e v = .ok w) (hR : R w s.val) :
    Reverts undo R s (s.record v e) := by
  refine ⟨[e], rfl, w, ?_, hR⟩
  simp [undoAll, h, bind, Except.bind]

/-- Undoing respects `R`: related values stay related and neither raises alone. -/
def Respects (undo : ε → σ → Except E σ) (R : σ → σ → Prop) : Prop :=
  ∀ e v v' w, R v v' → undo e v' = .ok w → ∃ u, undo e v = .ok u ∧ R u w

theorem Respects.eq (undo : ε → σ → Except E σ) : Respects undo Eq := by
  rintro e v v' w rfl h
  exact ⟨w, h, rfl⟩

theorem Respects.undoAll (hr : Respects undo R) (es : List ε) {v v' w : σ} (h : R v v')
    (hw : undoAll undo es v' = .ok w) : ∃ u, undoAll undo es v = .ok u ∧ R u w := by
  induction es generalizing v v' with
  | nil =>
      cases hw
      exact ⟨v, rfl, h⟩
  | cons e es ih =>
      simp only [Logged.undoAll, bind, Except.bind] at hw ⊢
      cases he : undo e v' with
      | error err => rw [he] at hw; cases hw
      | ok x =>
          rw [he] at hw
          obtain ⟨y, hy, hxy⟩ := hr e v v' x h he
          rw [hy]
          exact ih hxy hw

theorem Reverts.trans (hr : Respects undo R) (htr : ∀ {u v w}, R u v → R v w → R u w)
    {s t u : Logged σ ε} (hst : Reverts undo R s t) (htu : Reverts undo R t u) :
    Reverts undo R s u := by
  obtain ⟨es, hes, v, hv, hvs⟩ := hst
  obtain ⟨fs, hfs, w, hw, hwt⟩ := htu
  obtain ⟨x, hx, hxv⟩ := hr.undoAll es hwt hv
  refine ⟨fs ++ es, ?_, x, ?_, htr hxv hvs⟩
  · rw [hfs, hes, Option.map_map]
    congr 1
    funext l
    simp
  · rw [undoAll_append, hw]
    exact hx

theorem Reverts.foldl {α β : Type} (hR : ∀ v, R v v) (hr : Respects undo R)
    (htr : ∀ {u v w}, R u v → R v w → R u w) {f : β → α → β} {π : β → Logged σ ε}
    (hf : ∀ b a, Reverts undo R (π b) (π (f b a))) (l : List α) (b : β) :
    Reverts undo R (π b) (π (l.foldl f b)) := by
  induction l generalizing b with
  | nil => exact .refl hR _
  | cons a l ih => exact .trans hr htr (hf b a) (ih (f b a))

/-- From every value that `S` relates to that of `t`, the entries added since `s` lead to one that `R` relates to that of `s`. -/
def Rewinds (undo : ε → σ → Except E σ) (R S : σ → σ → Prop) (s t : Logged σ ε) : Prop :=
  ∃ new, t.log = s.log.map (new ++ ·) ∧ ∀ v, S v t.val → ∃ w, undoAll undo new v = .ok w ∧ R w s.val

section rewinds
variable {Q S : σ → σ → Prop}

theorem Rewinds.of_le {s : Logged σ ε} (h : ∀ v, S v s.val → R v s.val) : Rewinds undo R S s s := by
  refine ⟨[], ?_, fun v hv => ⟨v, rfl, h v hv⟩⟩
  cases s.log <;> rfl

theorem Rewinds.of_record {s : Logged σ ε} {v : σ} {e : ε} (h : ∀ x, S x v → ∃ w, undo e x = .ok w ∧ R w s.val) :
    Rewinds undo R S s (s.record v e) := by
  refine ⟨[e], rfl, fun x hx => ?_⟩
  obtain ⟨w, hw, hR⟩ := h x hx
  exact ⟨w, by rw [undoAll, hw]; rfl, hR⟩

theorem Rewinds.trans {s t u : Logged σ ε} (hst : Rewinds undo Q R s t) (htu : Rewinds undo R S t u) : Rewinds undo Q S s u := by
  obtain ⟨es, hes, hback⟩ := hst
  obtain ⟨fs, hfs, hback'⟩ := htu
  refine ⟨fs ++ es, ?_, fun v hv => ?_⟩
  · rw [hfs, hes, Option.map_map]
    congr 1
    funext l
    simp
  · obtain ⟨w, hw, hR⟩ := hback' v hv
    obtain ⟨x, hx, hQ⟩ := hback w hR
    exact ⟨x, by rw [undoAll_append, hw]; exact hx, hQ⟩

theorem Rewinds.reverts {s t : Logged σ ε} (h : Rewinds undo R Eq s t) : Reverts undo R s t := by
  obtain ⟨new, hnew, hback⟩ := h
  exact ⟨new, hnew, hback t.val rfl⟩

end rewinds

/-- Rolling back to the token of a checkpoint restores the value, and the journal as it was
(closed, when the token is zero). -/
theorem rollback_of_reverts (closed : E) {s t : Logged σ ε} (h : Reverts undo R s.checkpoint.2 t) :
    ∃ v, R v s.val ∧ t.rollback undo closed s.checkpoint.1 =
      .ok ⟨v, if s.checkpoint.1 = 0 then none else s.checkpoint.2.log⟩ := by
  obtain ⟨new, hnew, v, hv, hR⟩ := h
  refine ⟨v, hR, ?_⟩
  simp only [checkpoint, Option.map_some] at hnew
  simp only [rollback, hnew, checkpoint]
  rw [unwind_append, hv]
  rfl

/-- From a closed journal the rollback gives back exactly the closed journal. -/
theorem rollback_closed (closed : E) {s t : Logged σ ε} (hs : s.log = none)
    (h : Reverts undo R s.checkpoint.2 t) :
    ∃ v, R v s.val ∧ t.rollback undo closed s.checkpoint.1 = .ok ⟨v, none⟩ := by
  obtain ⟨v, hR, hv⟩ := rollback_of_reverts closed h
  refine ⟨v, hR, ?_⟩
  rw [hv]
  simp [checkpoint, hs]

theorem checkpoint_open {s : Logged σ ε} (h : s.log ≠ none) : s.checkpoint.2 = s := by
  obtain ⟨l, hl⟩ := Option.ne_none_iff_exists'.mp h
  ext1
  · rfl
  · simp [checkpoint, hl]

theorem Reverts.log_ne_none {s t : Logged σ ε} (h : Reverts undo R s t) (hs : s.log ≠ none) : t.log ≠ none := by
  obtain ⟨new, hnew, -⟩ := h
  rw [hnew]
  simpa using hs

/-- The tokens not yet rolled back, newest first, each with the value it was taken at: the journal is one window over
the state in which the newest was taken, and so on down to a closed journal. -/
inductive Windows (undo : ε → σ → Except E σ) : Logged σ ε → List (Nat × σ) → Prop
  | closed {s : Logged σ ε} : s.log = none → Windows undo s []
  | window {s t : Logged σ ε} {tokens : List (Nat × σ)} : Windows undo s tokens → Reverts undo Eq s.checkpoint.2 t →
      Windows undo t ((s.checkpoint.1, s.val) :: tokens)

namespace Windows

variable {s t : Logged σ ε} {tokens : List (Nat × σ)} {token : Nat} {v : σ}

theorem step (h : Windows undo s tokens) (hst : Reverts undo Eq s t) : Windows undo t tokens := by
  cases h with
  | closed hs =>
      obtain ⟨new, hnew, -⟩ := hst
      exact .closed (by rw [hnew, hs]; rfl)
  | window hw hr => exact .window hw (hr.trans (.eq undo) Eq.trans hst)

theorem checkpoint (h : Windows undo s tokens) : Windows undo s.checkpoint.2 ((s.checkpoint.1, s.val) :: tokens) :=
  .window h (.refl (fun _ => rfl) _)

/-- The newest token is rolled back to the value it was taken at, and what is left are windows again, unless the token is
zero and was not the last. -/
theorem rollback (closed : E) (h : Windows undo s ((token, v) :: tokens)) :
    ∃ t, s.rollback undo closed token = .ok t ∧ t.val = v ∧ (token ≠ 0 ∨ tokens = [] → Windows undo t tokens) := by
  cases h with
  | @window s₀ _ _ hw hr =>
      obtain ⟨w, rfl, hroll⟩ := rollback_of_reverts closed hr
      refine ⟨_, hroll, rfl, fun hlast => ?_⟩
      by_cases hz : s₀.checkpoint.1 = 0
      · rw [if_pos hz, hlast.resolve_left (not_not_intro hz)]
        exact .closed rfl
      · rw [if_neg hz, checkpoint_open]
        · exact hw
        · intro hn
          simp [Logged.checkpoint, hn] at hz

end Windows

/-- After a rollback to zero the journal is closed, and the next rollback raises. -/
theorem rollback_zero {closed : E} {s t : Logged σ ε} (h : s.rollback undo closed 0 = .ok t) (token : Nat) :
    t.rollback undo closed token = .error closed := by
  unfold rollback at h
  split at h
  · cases h
  · cases hu : unwind undo 0 _ s.val with
    | error e =>
        rw [hu] at h
        cases h
    | ok p =>
        rw [hu] at h
        cases h
        rfl

end Logged
end Vliw
