import VliwKernel.Kernel.Hash

/-!
# The shared vectors

What the shared vectors of the kernel hold in every lane, under every setting of the toggles, and the frames of the
programs that read them. With the constants in place the hash of a group computes `myhash`.
-/

namespace Vliw

/-- A program on one lane, whose compares expect of each field what `E` says. -/
abbrev LaneWp (mem : List Nat) (r base : Nat) (E : TraceField → Nat → Prop) : List (Op Operand) → ((Sym → Nat) → Prop) → (Sym → Nat) → Prop :=
  Wp (Op.laneStep mem) (LaneObs r base fun _ => E)

section frame

def Frame (W : Name → Bool) (f f' : Sym → Nat) : Prop := ∀ n : Name, W n = false → f' n = f n

def Op.Writes (W : Name → Bool) (o : Op Operand) : Prop := ∀ d ∈ o.dest?, ∃ n : Name, d.base = n ∧ W n = true

variable {W W' : Name → Bool} {f f' f'' : Sym → Nat} {mem : List Nat} {r base : Nat} {E : TraceField → Nat → Prop} {os : List (Op Operand)}
  {Q : (Sym → Nat) → Prop}

theorem Frame.refl (W : Name → Bool) (f : Sym → Nat) : Frame W f f := fun _ _ => rfl

theorem Frame.trans (h : Frame W f f') (h' : Frame W f' f'') : Frame W f f'' := fun n hn => (h' n hn).trans (h n hn)

theorem Frame.mono (h : Frame W f f') (hW : ∀ n, W n = true → W' n = true) : Frame W' f f' := by
  intro n hn
  apply h
  rw [← Bool.not_eq_true]
  intro hn'
  rw [hW n hn'] at hn
  cases hn

theorem Op.laneStep_frame {o : Op Operand} (ho : o.Writes W) (h : o.laneStep mem f = .ok f') : Frame W f f' := by
  intro n hn
  obtain ⟨v, -, h⟩ := bind_eq_ok.mp h
  cases h
  cases hd : o.dest? with
  | none => rfl
  | some d =>
      obtain ⟨m, hm, hw⟩ := ho d hd
      apply Function.update_of_ne
      rw [hm, ne_eq, Name.sym_inj]
      rintro rfl
      rw [hn] at hw
      cases hw

theorem LaneWp.frame (h : LaneWp mem r base E os Q f) (hw : ∀ o ∈ os, o.Writes W) :
    LaneWp mem r base E os (fun f' => Q f' ∧ Frame W f f') f :=
  Wp.inv h (I := Frame W f) (fun ho hstep hf => hf.trans (Op.laneStep_frame (hw _ ho) hstep)) (.refl W f)

end frame

/-- The constant of the last hash stage. -/
def C5 : Nat := (HASH_STAGES (Fin.last 5)).val1

open Name (val constVec K K2S9)

/-- What the shared vectors hold, in every lane. -/
def constOf (tg : Toggles) (t : Tree) : Name → Option Nat
  | .constVec v => if v ∈ 0 :: SMALL_CONSTS ∨ (v = 16896 ∧ tg.fuseHashStages23) then some v else none
  | .K 0 => some 0x7ED55D16
  | .K 1 => some 0xC761C23C
  | .K 2 => if tg.fuseHashStages23 then none else some 0x165667B1
  | .K 3 => if tg.fuseHashStages23 then none else some 0xD3A2646C
  | .K 4 => some 0xFD7046C5
  | .K 5 => some C5
  | .K 23 => if tg.fuseHashStages23 then some (FUSED23_ADD1 HASH_STAGES) else none
  | .K2S9 => if tg.fuseHashStages23 then some (FUSED23_ADD2 HASH_STAGES) else none
  | .negFp1 => some (WORD - 6)
  | .posFp 7 => some 14
  | .tree i => if i < 15 ∨ (i < 31 ∧ 0 < tg.preloadL4Groups ∧ !tg.preloadL4Jit) then some (t.values.getD i 0) else none
  | _ => none

def Consts (tg : Toggles) (t : Tree) (f : Sym → Nat) : Prop := ∀ n v, constOf tg t n = some v → f n = v

section consts

variable {tg : Toggles} {t : Tree} {W : Name → Bool} {f f' : Sym → Nat}

theorem Consts.frame (h : Consts tg t f) (hf : Frame W f f') (hW : ∀ n, (constOf tg t n).isSome → W n = false) : Consts tg t f' :=
  fun n v hn => (hf n (hW n (by rw [hn]; rfl))).trans (h n v hn)

theorem Consts.small (hc : Consts tg t f) {v : Nat} (hv : v ∈ 0 :: SMALL_CONSTS) : f (constVec v) = v :=
  hc _ _ (if_pos (.inl hv))

theorem Consts.node (hc : Consts tg t f) {i : Nat} (hi : i < 15) : f (Name.tree i) = t.values.getD i 0 :=
  hc (.tree i) _ (if_pos (.inl hi))

theorem Consts.names (hc : Consts tg t f) {g : Nat} {l : List (Nat × Name)} (hl : ∀ p ∈ l, constOf tg t p.2 = some p.1 ∧ p.1 < WORD) :
    Names (val g) (Name.t 1) (Name.t 2) (constDict l) f := by
  apply Names.ofList
  intro p hp
  obtain ⟨⟨k, n⟩, hkn, rfl⟩ := List.mem_map.mp hp
  obtain ⟨hn, hk⟩ := hl _ hkn
  have hne : ∀ m : Name, constOf tg t m = none → n ≠ m := by
    rintro m hm rfl
    rw [hn] at hm
    cases hm
  simp only [ne_eq, Name.sym_inj]
  exact ⟨⟨hne _ rfl, hne _ rfl, hne _ rfl⟩, (hc n k hn).trans (Nat.mod_eq_of_lt hk).symm⟩

end consts
section hash

variable {tg : Toggles} {t : Tree} {f : Sym → Nat} {mem : List Nat} {g r base : Nat} {E : TraceField → Nat → Prop} {deferC5 : Bool}
  {ops : List (Op Operand)}

def hashLocal (g : Nat) (n : Name) : Bool := n = val g || n = .t 1 || n = .t 2

theorem constOf_hashLocal {n : Name} (h : (constOf tg t n).isSome) : hashLocal g n = false := by
  rw [← Bool.not_eq_true]
  simp only [hashLocal, Bool.or_eq_true, decide_eq_true_eq]
  rintro ((rfl | rfl) | rfl) <;> cases h

/-- The vectors of `irrVecConsts` that the hash reads: fused, stage 3 has no use for its own. -/
def irrUsed (tg : Toggles) : List (Nat × Name) :=
  [(0xC761C23C, .K 1)] ++ (if tg.fuseHashStages23 then [] else [(0xD3A2646C, .K 3)]) ++
    [(0xB55A4F09, .K 5), (19, .constVec 19), (9, .constVec 9), (16, .constVec 16)]

theorem hashSlots_congr {v t1 t2 : Sym} {fma irr irr' : Dict Nat Sym} {hi : Nat} {st : HashStage} (h1 : irr.get? st.val1 = irr'.get? st.val1)
    (h3 : irr.get? st.val3 = irr'.get? st.val3) :
    hashSlots v t1 t2 r base fma irr deferC5 hi st = hashSlots v t1 t2 r base fma irr' deferC5 hi st := by
  simp only [hashSlots, lookup, h1, h3]

theorem hashLoop_congr {T : HashTable} {fuse : Bool} {v t1 t2 : Sym} {fma irr irr' : Dict Nat Sym}
    (h : ∀ i : Fin 6, (fuse = true → i ≠ 3) → irr.get? (T i).val1 = irr'.get? (T i).val1 ∧ irr.get? (T i).val3 = irr'.get? (T i).val3)
    {n hi : Nat} (hhi : fuse = true → hi ≠ 3) :
    hashLoop T fuse v t1 t2 r base fma irr deferC5 n hi = hashLoop T fuse v t1 t2 r base fma irr' deferC5 n hi := by
  induction n generalizing hi with
  | zero => rfl
  | succ n ih =>
      rw [hashLoop, hashLoop]
      split
      · next hlt =>
          split
          · next hf =>
              rw [ih (by omega)]
          · next hf =>
              have hstage := h ⟨hi, hlt⟩ fun hfuse h3 => hhi hfuse (congrArg Fin.val h3)
              rw [hashSlots_congr hstage.1 hstage.2, ih]
              rintro hfuse
              have : hi ≠ 2 := fun h2 => hf ⟨hfuse, h2⟩
              omega
      · rfl

theorem buildVecHash_irrUsed (v t1 t2 : Sym) : buildVecHash HASH_STAGES tg.fuseHashStages23 v t1 t2 r base (fmaVecConsts tg) irrVecConsts deferC5 =
    buildVecHash HASH_STAGES tg.fuseHashStages23 v t1 t2 r base (fmaVecConsts tg) (constDict (irrUsed tg)) deferC5 := by
  refine hashLoop_congr ?_ (by omega)
  rw [irrUsed]
  cases tg.fuseHashStages23 <;> decide

/-- The tables have all that the hash looks up. -/
theorem buildVecHash_ok (tg : Toggles) (v t1 t2 : Sym) (r base : Nat) (deferC5 : Bool) : ∃ ops,
    buildVecHash HASH_STAGES tg.fuseHashStages23 v t1 t2 r base (fmaVecConsts tg) irrVecConsts deferC5 = .ok ops := by
  rw [fmaVecConsts]
  cases tg.fuseHashStages23 <;> cases deferC5 <;> exact ⟨_, rfl⟩

theorem hash_lane (hc : Consts tg t f) (hE : ∀ i : Fin 6, E (.hashStage i) (hashValue HASH_STAGES (f (val g)) (i + 1)))
    (hok : buildVecHash HASH_STAGES tg.fuseHashStages23 (val g) (Name.t 1) (Name.t 2) r base (fmaVecConsts tg) irrVecConsts deferC5 = .ok ops) :
    LaneWp mem r base E ops (fun f' => f' (val g) = (if deferC5 then myhash HASH_STAGES (f (val g)) ^^^ C5 else myhash HASH_STAGES (f (val g))) ∧
      Frame (hashLocal g) f f') f := by
  have hfma : Names (val g) (Name.t 1) (Name.t 2) (fmaVecConsts tg) f := by
    apply hc.names
    cases hfuse : tg.fuseHashStages23 <;> simp [constOf, hfuse] <;> decide
  have hirr : Names (val g) (Name.t 1) (Name.t 2) (constDict (irrUsed tg)) f := by
    apply hc.names
    rw [irrUsed]
    cases hfuse : tg.fuseHashStages23 <;> simp [constOf, hfuse] <;> decide
  rw [buildVecHash_irrUsed] at hok
  refine (hashLoop_lane HASH_STAGES_shaped (by simp) (by simp) (by simp) hfma hirr hE (Nat.le_refl 6) (Nat.zero_le 6) ?_ hok).mono ?_
  · rw [if_neg (by omega), hashValue_zero]
  · rintro f' ⟨hval, hframe⟩
    refine ⟨hval, fun n hn => ?_⟩
    simp only [hashLocal, Bool.or_eq_false_iff, decide_eq_false_iff_not] at hn
    apply hframe
    all_goals simp only [ne_eq, Name.sym_inj, hn, not_false_eq_true]

end hash
end Vliw
