import VliwKernel.Kernel.Builder
import VliwKernel.Semantics.Lanes

/-!
# The vector hash

On every lane the slots of `build_vec_hash` compute `myhash` in place, fused or not, with or without the last
constant, and each of their compares sees the stage value that its key names.
-/

namespace Vliw

/-- The first word past everything that a round loads: `inp_values_p`. -/
def INP_VALUES_P : Nat := 2310

/-- What is observed of a lane before an operation: it works lane by lane, a gather loads from below the values,
and a compare has keys of one field that the lane `E`xpects its symbol to hold. -/
def LaneObs (r base : Nat) (E : Sym → TraceField → Nat → Prop) (f : Sym → Nat) (o : Op Operand) : Prop :=
  o.lanewise = true ∧ match o with
    | .gather _ a => f a.base < INP_VALUES_P
    | .debugVCompare (.sym x) keys => ∃ field, keys = laneKeys r base field ∧ E x field (f x)
    | .debugVCompare (.lane ..) _ => False
    | _ => True

section stages

/-- `(a + k) + (a << s)` is one multiply-add. -/
theorem HashStage.apply_linear (a k s : Nat) :
    (HashStage.mk .add k .add .shl s).apply a = (a * ((1 <<< s) + 1) % WORD + k) % WORD := by
  simp only [apply, HashOp.apply, Nat.shiftLeft_eq, Nat.one_mul, Nat.mod_add_mod, Nat.add_mod_mod]
  congr 1
  ring

/-- `<<` distributes over `+`: the two stages are two multiply-adds and an xor. -/
theorem HashStage.apply_fused (a c m k s : Nat) : (HashStage.mk .add k .xor .shl s).apply ((a * m % WORD + c) % WORD) =
    ((a * m % WORD + (c + k) % WORD) % WORD ^^^ (a * (m <<< s) % WORD + (c <<< s) % WORD) % WORD) % WORD := by
  have hadd : ((a * m % WORD + c) % WORD + k) % WORD = (a * m % WORD + (c + k) % WORD) % WORD := by
    rw [Nat.mod_add_mod, Nat.add_mod_mod, Nat.add_assoc]
  have hshift : ((a * m % WORD + c) % WORD * 2 ^ s) % WORD = (a * (m * 2 ^ s) % WORD + c * 2 ^ s % WORD) % WORD := by
    rw [Nat.mod_mul_mod, Nat.add_mul, Nat.add_mod, Nat.mod_mul_mod, Nat.mul_assoc]
  simp only [apply, HashOp.apply, Nat.shiftLeft_eq, hadd, hshift]

theorem xor_lt {a b : Nat} (ha : a < WORD) (hb : b < WORD) : a ^^^ b < WORD := Nat.xor_lt_two_pow ha hb

theorem HashStage.apply_lt (st : HashStage) (a : Nat) : st.apply a < WORD := by
  unfold apply
  exact Nat.mod_lt _ WORD_pos

theorem myhash_lt (T : HashTable) (a : Nat) : myhash T a < WORD := by
  have hlast : hashValue T a 6 = (T 5).apply (hashValue T a 5) := hashValue_succ T a 5
  rw [← hashValue_last, hlast]
  exact HashStage.apply_lt _ _

end stages
section lane

variable {mem : List Nat} {f f' f'' : Sym → Nat} {v t1 t2 : Sym} {r base : Nat} {E : Sym → TraceField → Nat → Prop}

def HashFrame (v t1 t2 : Sym) (f f' : Sym → Nat) : Prop := ∀ x, x ≠ v → x ≠ t1 → x ≠ t2 → f' x = f x

theorem HashFrame.trans (h : HashFrame v t1 t2 f f') (h' : HashFrame v t1 t2 f' f'') : HashFrame v t1 t2 f f'' :=
  fun x hv h1 h2 => (h' x hv h1 h2).trans (h x hv h1 h2)

/-- A dictionary in which the key `k` names a vector that holds `k`, none of the hash's own. -/
def Names (v t1 t2 : Sym) (d : Dict Nat Sym) (f : Sym → Nat) : Prop :=
  ∀ k c, d.get? k = some c → (c ≠ v ∧ c ≠ t1 ∧ c ≠ t2) ∧ f c = k % WORD

theorem Names.frame {d : Dict Nat Sym} (h : Names v t1 t2 d f) (hf : HashFrame v t1 t2 f f') : Names v t1 t2 d f' := by
  intro k c hk
  obtain ⟨⟨hv, h1, h2⟩, hc⟩ := h k c hk
  exact ⟨⟨hv, h1, h2⟩, (hf c hv h1 h2).trans hc⟩

theorem Names.ofList {l : List (Nat × Sym)} (h : ∀ p ∈ l, (p.2 ≠ v ∧ p.2 ≠ t1 ∧ p.2 ≠ t2) ∧ f p.2 = p.1 % WORD) :
    Names v t1 t2 (.ofList l) f := fun _ _ hk => h _ (Dict.mem_of_get?_ofList hk)

/-- The six op shapes of `HASH_STAGES`, on words and with shifts below the word size. -/
structure HashTable.Shaped (T : HashTable) : Prop where
  op1 : ∀ i, (T i).op1 = (HASH_STAGES i).op1
  op2 : ∀ i, (T i).op2 = (HASH_STAGES i).op2
  op3 : ∀ i, (T i).op3 = (HASH_STAGES i).op3
  val1 : ∀ i, (T i).val1 < WORD
  val3 : ∀ i, (T i).val3 < 32

theorem HASH_STAGES_shaped : HASH_STAGES.Shaped where
  op1 _ := rfl
  op2 _ := rfl
  op3 _ := rfl
  val1 := by decide +kernel
  val3 := by decide +kernel

theorem aluOp_hash (op : HashOp) (a b : Nat) : aluOp op.alu a b = .ok (op.apply a b % WORD) := by
  cases op <;> rfl

theorem lookup_eq_ok {d : Dict Nat Sym} {k : Nat} {c : Sym} : lookup d k = .ok c ↔ d.get? k = some c := by
  rw [lookup]
  cases d.get? k <;> simp

theorem linear_lane {st : HashStage} (h1 : st.op1 = .add) (h2 : st.op2 = .add) (h3 : st.op3 = .shl) {mult addend : Sym}
    (hm : f mult = ((1 <<< st.val3) + 1) % WORD) (ha : f addend = st.val1 % WORD) {i : Nat} (hE : E v (.hashStage i) (st.apply (f v))) :
    Wp (Op.laneStep mem) (LaneObs r base E)
      [.vecFma (.sym v) (.sym v) (.sym mult) (.sym addend), .debugVCompare (.sym v) (laneKeys r base (.hashStage i))]
      (fun f' => f' v = st.apply (f v) ∧ HashFrame v t1 t2 f f') f := by
  have happly : (f v * f mult % WORD + f addend) % WORD = st.apply (f v) := by
    obtain ⟨_, k, _, _, s⟩ := st
    cases h1
    cases h2
    cases h3
    rw [hm, ha, Nat.mul_mod_mod, Nat.add_mod_mod, HashStage.apply_linear]
  simp only [Wp.cons, LaneObs, Op.lanewise, Op.laneStep, Op.lane, Op.dest?, Operand.base, bind_ok, happly]
  refine ⟨⟨trivial, trivial⟩, _, rfl, ⟨trivial, _, rfl, ?_⟩, _, rfl, ?_, ?_⟩
  · simpa using hE
  · simp
  · intro x hv _ _
    exact Function.update_of_ne hv _ _

theorem irreducible_lane (hv1 : v ≠ t1) (h12 : t1 ≠ t2) {st : HashStage} {k shift : Sym} (hk : f k = st.val1) (hs : f shift = st.val3) (hs1 : shift ≠ t1) {i : Nat}
    (hE : E v (.hashStage i) (st.apply (f v))) :
    Wp (Op.laneStep mem) (LaneObs r base E)
      [.vecElem st.op1.alu (.sym t1) (.sym v) (.sym k), .vecElem st.op3.alu (.sym t2) (.sym v) (.sym shift),
        .vecElem st.op2.alu (.sym v) (.sym t1) (.sym t2), .debugVCompare (.sym v) (laneKeys r base (.hashStage i))]
      (fun f' => f' v = st.apply (f v) ∧ HashFrame v t1 t2 f f') f := by
  rw [HashStage.apply] at hE ⊢
  simp only [Wp.cons, LaneObs, Op.lanewise, Op.laneStep, Op.lane, Op.dest?, Operand.base, bind_ok, aluOp_hash, hk,
    Function.update_of_ne hv1, Function.update_of_ne hs1, Function.update_of_ne h12, Function.update_self, hs, Option.map_some,
    Option.getD_some, Option.map_none, Option.getD_none, Except.ok.injEq, exists_eq_left', Wp.nil]
  refine ⟨⟨trivial, trivial⟩, ⟨trivial, trivial⟩, ⟨trivial, trivial⟩, ⟨trivial, _, rfl, hE⟩, trivial, ?_⟩
  intro x hv h1 h2
  rw [Function.update_of_ne hv, Function.update_of_ne h2, Function.update_of_ne h1]

theorem fused_lane (hv1 : v ≠ t1) (h12 : t1 ≠ t2) {st st' : HashStage} (h : st.op1 = .add ∧ st.op2 = .add ∧ st.op3 = .shl)
    (h' : st'.op1 = .add ∧ st'.op2 = .xor ∧ st'.op3 = .shl) {m2 add1 mult add2 : Sym}
    (hmult1 : mult ≠ t1) (hadd1 : add2 ≠ t1) (hm2 : f m2 = ((1 <<< st.val3) + 1) % WORD)
    (ha1 : f add1 = (st.val1 + st'.val1) % WORD) (hmult : f mult = (((1 <<< st.val3) + 1) <<< st'.val3) % WORD)
    (ha2 : f add2 = (st.val1 <<< st'.val3) % WORD) {i : Nat} (hE : E v (.hashStage i) (st'.apply (st.apply (f v)))) :
    Wp (Op.laneStep mem) (LaneObs r base E)
      [.vecFma (.sym t1) (.sym v) (.sym m2) (.sym add1), .vecFma (.sym t2) (.sym v) (.sym mult) (.sym add2),
        .vecElem .xor (.sym v) (.sym t1) (.sym t2), .debugVCompare (.sym v) (laneKeys r base (.hashStage i))]
      (fun f' => f' v = st'.apply (st.apply (f v)) ∧ HashFrame v t1 t2 f f') f := by
  have happly : ((f v * f m2 % WORD + f add1) % WORD ^^^ (f v * f mult % WORD + f add2) % WORD) % WORD = st'.apply (st.apply (f v)) := by
    obtain ⟨_, c, _, _, s⟩ := st
    obtain ⟨_, k, _, _, s'⟩ := st'
    obtain ⟨rfl, rfl, rfl⟩ := h
    obtain ⟨rfl, rfl, rfl⟩ := h'
    rw [HashStage.apply_linear, HashStage.apply_fused, hm2, ha1, hmult, ha2, Nat.mul_mod_mod, Nat.mul_mod_mod]
  simp only [Wp.cons, LaneObs, Op.lanewise, Op.laneStep, Op.lane, Op.dest?, Operand.base, bind_ok, aluOp,
    Function.update_of_ne hv1, Function.update_of_ne hmult1, Function.update_of_ne hadd1, Function.update_of_ne h12,
    Function.update_self, Option.map_some, Option.getD_some, Option.map_none, Option.getD_none, Except.ok.injEq, exists_eq_left',
    Wp.nil, happly]
  refine ⟨⟨trivial, trivial⟩, ⟨trivial, trivial⟩, ⟨trivial, trivial⟩, ⟨trivial, _, rfl, hE⟩, trivial, ?_⟩
  intro x hv h1 h2
  rw [Function.update_of_ne hv, Function.update_of_ne h2, Function.update_of_ne h1]

/-- The last stage without its constant leaves the hash xored with it. -/
theorem deferred_lane (hv2 : v ≠ t2) {st : HashStage} (h : st.op1 = .xor ∧ st.op2 = .xor ∧ st.op3 = .shr) {shift : Sym} (hs : f shift = st.val3)
    (hk : st.val1 < WORD) (hlt : f v < WORD) :
    Wp (Op.laneStep mem) (LaneObs r base E)
      [.vecElem st.op3.alu (.sym t2) (.sym v) (.sym shift), .vecElem .xor (.sym v) (.sym v) (.sym t2)]
      (fun f' => f' v = st.apply (f v) ^^^ st.val1 ∧ HashFrame v t1 t2 f f') f := by
  obtain ⟨_, k, _, _, s⟩ := st
  obtain ⟨rfl, rfl, rfl⟩ := h
  have hshift : f v >>> s < WORD := Nat.lt_of_le_of_lt (Nat.shiftRight_le _ _) hlt
  have hxor : f v ^^^ k < WORD := xor_lt hlt hk
  have happly : (f v ^^^ f v >>> s % WORD) % WORD = (HashStage.mk .xor k .xor .shr s).apply (f v) ^^^ k := by
    rw [HashStage.apply, HashOp.apply, HashOp.apply, HashOp.apply, Nat.mod_eq_of_lt hxor, Nat.mod_eq_of_lt hshift,
      Nat.mod_eq_of_lt (xor_lt hlt hshift), Nat.mod_eq_of_lt (xor_lt hxor hshift), Nat.xor_right_comm, Nat.xor_xor_cancel_right]
  simp only [Wp.cons, LaneObs, Op.lanewise, Op.laneStep, Op.lane, Op.dest?, Operand.base, bind_ok, HashOp.alu, aluOp, hs,
    Function.update_of_ne hv2, Function.update_self, Option.map_some, Option.getD_some, Except.ok.injEq, exists_eq_left', Wp.nil, happly]
  refine ⟨⟨trivial, trivial⟩, ⟨trivial, trivial⟩, trivial, ?_⟩
  intro x hv _ h2
  rw [Function.update_of_ne hv, Function.update_of_ne h2]

section loop

variable {T : HashTable} (hT : T.Shaped) {fma irr : Dict Nat Sym} {deferC5 fuse : Bool} {ops : List (Op Operand)} {a : Nat}

include hT

theorem hashSlots_lane (hv1 : v ≠ t1) (hv2 : v ≠ t2) (h12 : t1 ≠ t2) (hfma : Names v t1 t2 fma f) (hirr : Names v t1 t2 irr f)
    {i : Fin 6} (hE : E v (.hashStage i) ((T i).apply (f v))) (hlt : i = 5 → f v < WORD)
    (hok : hashSlots v t1 t2 r base fma irr deferC5 i (T i) = .ok ops) : Wp (Op.laneStep mem) (LaneObs r base E) ops
      (fun f' => f' v = (if deferC5 ∧ i = 5 then (T i).apply (f v) ^^^ (T i).val1 else (T i).apply (f v)) ∧ HashFrame v t1 t2 f f') f := by
  have hlast : i.val = 6 - 1 ↔ i = 5 := by omega
  have hword : ∀ n, n < 32 → n % WORD = n := fun n hn => Nat.mod_eq_of_lt (by rw [WORD]; omega)
  unfold hashSlots at hok
  simp only [hlast] at hok
  split at hok
  · next hd =>
      obtain ⟨rfl⟩ := hd.2
      obtain ⟨shift, hs, hok⟩ := bind_eq_ok.mp hok
      cases hok
      have hs := (hirr _ _ (lookup_eq_ok.mp hs)).2
      rw [hword _ (hT.val3 5)] at hs
      rw [if_pos hd]
      exact deferred_lane hv2 ⟨hT.op1 5, hT.op2 5, hT.op3 5⟩ hs (hT.val1 5) (hlt rfl)
  · next hd =>
      rw [if_neg hd]
      split at hok
      · next hlin =>
          obtain ⟨mult, hm, hok⟩ := bind_eq_ok.mp hok
          obtain ⟨addend, ha, hok⟩ := bind_eq_ok.mp hok
          cases hok
          have hshape : ∀ i, (HASH_STAGES i).op1 = .add → (HASH_STAGES i).op2 = .add → (HASH_STAGES i).op3 = .shl := by decide
          exact linear_lane hlin.1 hlin.2 ((hT.op3 i).trans (hshape i ((hT.op1 i).symm.trans hlin.1) ((hT.op2 i).symm.trans hlin.2)))
            (hfma _ _ (lookup_eq_ok.mp hm)).2 (hfma _ _ (lookup_eq_ok.mp ha)).2 hE
      · obtain ⟨k, hk, hok⟩ := bind_eq_ok.mp hok
        obtain ⟨shift, hs, hok⟩ := bind_eq_ok.mp hok
        cases hok
        obtain ⟨-, hk⟩ := hirr _ _ (lookup_eq_ok.mp hk)
        obtain ⟨⟨-, hs1, -⟩, hs⟩ := hirr _ _ (lookup_eq_ok.mp hs)
        rw [Nat.mod_eq_of_lt (hT.val1 i)] at hk
        rw [hword _ (hT.val3 i)] at hs
        exact irreducible_lane hv1 h12 hk hs hs1 hE

theorem fusedSlots_lane (hv1 : v ≠ t1) (h12 : t1 ≠ t2) (hfma : Names v t1 t2 fma f)
    (hE : E v (.hashStage 3) ((T 3).apply ((T 2).apply (f v)))) (hok : fusedSlots T v t1 t2 r base fma = .ok ops) :
    Wp (Op.laneStep mem) (LaneObs r base E) ops
      (fun f' => f' v = (T 3).apply ((T 2).apply (f v)) ∧ HashFrame v t1 t2 f f') f := by
  obtain ⟨m2, hm2, hok⟩ := bind_eq_ok.mp hok
  obtain ⟨add1, ha1, hok⟩ := bind_eq_ok.mp hok
  obtain ⟨mult, hm, hok⟩ := bind_eq_ok.mp hok
  obtain ⟨add2, ha2, hok⟩ := bind_eq_ok.mp hok
  cases hok
  obtain ⟨-, hm2⟩ := hfma _ _ (lookup_eq_ok.mp hm2)
  obtain ⟨-, ha1⟩ := hfma _ _ (lookup_eq_ok.mp ha1)
  obtain ⟨⟨-, hmult1, -⟩, hm⟩ := hfma _ _ (lookup_eq_ok.mp hm)
  obtain ⟨⟨-, hadd1, -⟩, ha2⟩ := hfma _ _ (lookup_eq_ok.mp ha2)
  rw [FUSED23_ADD1, Nat.mod_mod] at ha1
  rw [FUSED23_ADD2, Nat.mod_mod] at ha2
  exact fused_lane hv1 h12 ⟨hT.op1 2, hT.op2 2, hT.op3 2⟩ ⟨hT.op1 3, hT.op2 3, hT.op3 3⟩ hmult1 hadd1 hm2 ha1 hm ha2 hE

theorem hashLoop_lane (hv1 : v ≠ t1) (hv2 : v ≠ t2) (h12 : t1 ≠ t2) (hfma : Names v t1 t2 fma f) (hirr : Names v t1 t2 irr f)
    (hE : ∀ i : Fin 6, E v (.hashStage i) (hashValue T a (i + 1))) {n hi : Nat} (hn : 6 ≤ hi + n) (hhi : hi ≤ 6)
    (hval : f v = if deferC5 ∧ hi = 6 then myhash T a ^^^ (T 5).val1 else hashValue T a hi)
    (hok : hashLoop T fuse v t1 t2 r base fma irr deferC5 n hi = .ok ops) : Wp (Op.laneStep mem) (LaneObs r base E) ops
      (fun f' => f' v = (if deferC5 then myhash T a ^^^ (T 5).val1 else myhash T a) ∧ HashFrame v t1 t2 f f') f := by
  induction n generalizing hi f ops with
  | zero =>
      obtain rfl : hi = 6 := by omega
      cases hok
      exact ⟨by simpa [hashValue_last] using hval, fun x _ _ _ => rfl⟩
  | succ n ih =>
      rw [hashLoop] at hok
      split at hok
      · next h =>
          have hcur : f v = hashValue T a hi := by rw [hval, if_neg (by omega)]
          split at hok
          · next hf =>
              obtain ⟨-, rfl⟩ := hf
              obtain ⟨slots, hslots, hok⟩ := bind_eq_ok.mp hok
              obtain ⟨rest, hrest, hok⟩ := bind_eq_ok.mp hok
              cases hok
              have hval₄ : (T 3).apply ((T 2).apply (f v)) = hashValue T a 4 := by
                rw [hcur]
                exact (congrArg (T 3).apply (hashValue_succ T a 2).symm).trans (hashValue_succ T a 3).symm
              refine Wp.append.mpr ((fusedSlots_lane hT hv1 h12 hfma (hval₄ ▸ hE 3) hslots).mono ?_)
              rintro f₁ ⟨h₁, k₁⟩
              refine (ih (hfma.frame k₁) (hirr.frame k₁) (by omega) (by omega) ?_ hrest).mono fun f₂ h₂ => ⟨h₂.1, k₁.trans h₂.2⟩
              rw [h₁, hval₄, if_neg (by omega)]
          · obtain ⟨slots, hslots, hok⟩ := bind_eq_ok.mp hok
            obtain ⟨rest, hrest, hok⟩ := bind_eq_ok.mp hok
            cases hok
            have hnext : (T ⟨hi, h⟩).apply (f v) = hashValue T a (hi + 1) := by
              rw [hcur]
              exact (hashValue_succ T a ⟨hi, h⟩).symm
            have hlt : (⟨hi, h⟩ : Fin 6) = 5 → f v < WORD := by
              intro h5
              have h4 : hashValue T a hi = (T 4).apply (hashValue T a 4) := by
                rw [show hi = 5 from congrArg Fin.val h5]
                exact hashValue_succ T a 4
              rw [hcur, h4]
              exact HashStage.apply_lt _ _
            refine Wp.append.mpr ((hashSlots_lane hT hv1 hv2 h12 hfma hirr (hnext ▸ hE ⟨hi, h⟩) hlt hslots).mono ?_)
            rintro f₁ ⟨h₁, k₁⟩
            refine (ih (hfma.frame k₁) (hirr.frame k₁) (by omega) (by omega) ?_ hrest).mono fun f₂ h₂ => ⟨h₂.1, k₁.trans h₂.2⟩
            have hlast : (⟨hi, h⟩ : Fin 6) = 5 ↔ hi + 1 = 6 := by
              rw [Fin.ext_iff]
              show hi = 5 ↔ _
              omega
            simp only [h₁, hnext, hlast]
            split
            · next hd =>
                obtain rfl : hi = 5 := by omega
                rfl
            · rfl
      · next h =>
          obtain rfl : hi = 6 := by omega
          cases hok
          exact ⟨by simpa [hashValue_last] using hval, fun x _ _ _ => rfl⟩

end loop
end lane
section run

variable {s s' : SymState} {v t1 t2 : Sym} {r base : Nat} {E : Nat → Sym → TraceField → Nat → Prop}

theorem laneKeys_inj {field field' : TraceField} (h : laneKeys r base field = laneKeys r base field') : field = field' := by
  have hhead := congrArg List.head? h
  simpa [laneKeys, VLEN, List.range_succ_eq_map] using hhead

theorem laneKeys_getElem? {j : Nat} (field : TraceField) (hj : j < VLEN) : (laneKeys r base field)[j]? = some ⟨r, base + j, field⟩ := by
  rw [laneKeys, List.getElem?_map, List.getElem?_range hj, Option.map_some]

theorem LaneObs.compare {loc : Operand} {keys : List TraceKey}
    (h : ∀ j < VLEN, LaneObs r base (E j) (s.lane j) (.debugVCompare loc keys)) :
    ∃ x field, loc = .sym x ∧ keys = laneKeys r base field ∧ ∀ j < VLEN, E j x field (s.env x j) := by
  cases loc with
  | lane vec k => exact (h 0 (by decide)).2.elim
  | sym x =>
      obtain ⟨-, field, hkeys, -⟩ := h 0 (by decide)
      refine ⟨x, field, rfl, hkeys, fun j hj => ?_⟩
      obtain ⟨-, field', hkeys', hE⟩ := h j hj
      rw [laneKeys_inj (hkeys.symm.trans hkeys')]
      exact hE

theorem number_map_op (c : Nat) (ops : List (Op Operand)) : (number c ops).map Instr.op = ops := by
  apply List.ext_getElem?
  intro i
  rw [number, List.getElem?_map, List.getElem?_mapIdx, Option.map_map]
  exact Option.map_id'

/-- The slots leave in every lane the hash of what the lane held, and each compare sees the stage value of its key. -/
theorem buildVecHash_computes {T : HashTable} (hT : T.Shaped) (hv1 : v ≠ t1) (hv2 : v ≠ t2) (h12 : t1 ≠ t2) {fma irr : Dict Nat Sym}
    (hfma : ∀ j < VLEN, Names v t1 t2 fma (s.lane j)) (hirr : ∀ j < VLEN, Names v t1 t2 irr (s.lane j)) {fuse deferC5 : Bool}
    {ops : List (Op Operand)} (hok : buildVecHash T fuse v t1 t2 r base fma irr deferC5 = .ok ops) (c : Nat) (trace : Trace) :
    (∃ s', SymState.run (number c ops) s = .ok s' ∧
      ∀ j < VLEN, s'.env v j = if deferC5 then myhash T (s.env v j) ^^^ (T 5).val1 else myhash T (s.env v j)) ∧
    ∀ {k ins u loc keys}, RunsIn (number c ops) s k ins u → ins.op = .debugVCompare loc keys →
      loc = .sym v ∧ ∀ j < VLEN, ∃ key, keys[j]? = some key ∧
        (myhashTraced T (s.env v j) trace r (base + j)).2.get? key = some (u.env v j) := by
  -- a compare expects the value after a stage, as the trace records it
  let E := fun j x field w => x = v ∧ (myhashTraced T (s.env v j) trace r (base + j)).2.get? ⟨r, base + j, field⟩ = some w
  have hlane : ∀ j < VLEN, Wp (Op.laneStep s.mem) (LaneObs r base (E j)) ops
      (fun f => f v = if deferC5 then myhash T (s.env v j) ^^^ (T 5).val1 else myhash T (s.env v j)) (s.lane j) := by
    intro j hj
    refine (hashLoop_lane hT hv1 hv2 h12 (hfma j hj) (hirr j hj) ?_ (Nat.le_refl 6) (Nat.zero_le 6) ?_ hok).mono fun f h => h.1
    · exact fun i => ⟨rfl, myhashTraced_get? T _ trace r _ i⟩
    · rw [if_neg (by omega), hashValue_zero, SymState.lane]
  have hobs : ∀ (u : SymState) (o : Op Operand), (∀ j < VLEN, LaneObs r base (E j) (u.lane j) o) → o.lanewise = true ∧
      ∀ loc keys, o = .debugVCompare loc keys → loc = .sym v ∧ ∀ j < VLEN, ∃ key, keys[j]? = some key ∧
        (myhashTraced T (s.env v j) trace r (base + j)).2.get? key = some (u.env v j) := by
    refine fun u o h => ⟨(h 0 (by decide)).1, ?_⟩
    rintro loc keys rfl
    obtain ⟨x, field, rfl, rfl, hE⟩ := LaneObs.compare h
    obtain ⟨rfl, -⟩ := hE 0 (by decide)
    exact ⟨rfl, fun j hj => ⟨_, laneKeys_getElem? field hj, (hE j hj).2⟩⟩
  have hwp := SymState.wp_lanes hobs hlane
  have hnum : (number c ops).map Instr.op = ops := number_map_op c ops
  constructor
  · obtain ⟨s', hs', -, hval⟩ := hwp.foldlM
    rw [← hnum, ← SymState.run_eq_exec] at hs'
    exact ⟨s', hs', hval⟩
  · rintro k ins u loc keys ⟨hi, hu⟩ hop
    have hi' : ops[k]? = some ins.op := by rw [← hnum, List.getElem?_map, hi, Option.map_some]
    rw [SymState.run_eq_exec, List.map_take, hnum] at hu
    exact hwp.observe hi' hu loc keys hop

/-- On the shipped table, fused and deferred, with lane `j` holding `j`. -/
theorem buildVecHash_computes_shipped :
    let v : Sym := ⟨"val", true⟩
    let t1 : Sym := ⟨"t1", true⟩
    let t2 : Sym := ⟨"t2", true⟩
    let fma : List (Nat × Sym) := [(4097, ⟨"a", true⟩), (0x7ED55D16, ⟨"b", true⟩), (33, ⟨"c", true⟩), (9, ⟨"d", true⟩),
      (0xFD7046C5, ⟨"e", true⟩), (16896, ⟨"f", true⟩), (FUSED23_ADD1 HASH_STAGES, ⟨"g", true⟩), (FUSED23_ADD2 HASH_STAGES, ⟨"h", true⟩)]
    let irr : List (Nat × Sym) := [(0xC761C23C, ⟨"i", true⟩), (19, ⟨"j", true⟩), (16, ⟨"k", true⟩)]
    let s : SymState := ⟨fun x j => (((fma ++ irr).find? fun p => p.2 = x).map Prod.fst).getD j, []⟩
    ∃ ops s', buildVecHash HASH_STAGES true v t1 t2 11 0 (.ofList fma) (.ofList irr) true = .ok ops ∧
      SymState.run (number 0 ops) s = .ok s' ∧ ∀ j < VLEN, s'.env v j = myhash HASH_STAGES j ^^^ 0xB55A4F09 := by
  intro v t1 t2 fma irr s
  have hfma : ∀ j < VLEN, ∀ p ∈ fma, (p.2 ≠ v ∧ p.2 ≠ t1 ∧ p.2 ≠ t2) ∧ s.lane j p.2 = p.1 % WORD := by decide +kernel
  have hirr : ∀ j < VLEN, ∀ p ∈ irr, (p.2 ≠ v ∧ p.2 ≠ t1 ∧ p.2 ≠ t2) ∧ s.lane j p.2 = p.1 % WORD := by decide +kernel
  have hval : ∀ j < VLEN, s.env v j = j := by decide +kernel
  have hC5 : (HASH_STAGES 5).val1 = 0xB55A4F09 := rfl
  obtain ⟨ops, hops⟩ : ∃ ops, buildVecHash HASH_STAGES true v t1 t2 11 0 (.ofList fma) (.ofList irr) true = .ok ops := ⟨_, rfl⟩
  obtain ⟨⟨s', hs', hhash⟩, -⟩ := buildVecHash_computes HASH_STAGES_shaped (by decide) (by decide) (by decide)
    (fun j hj => Names.ofList (hfma j hj)) (fun j hj => Names.ofList (hirr j hj)) hops 0 .empty
  refine ⟨ops, s', hops, hs', fun j hj => ?_⟩
  rw [hhash j hj, if_pos rfl, hval j hj, hC5]

end run
end Vliw
