import VliwKernel.Kernel.Constants

/-!
# One round of one group

At level `l` of a descent the index of an item is spelt by its `l` path bits, and every way the kernel has of finding
the node, a select among preloaded nodes or a gather, finds the node at that index. So a round of a group makes one
step of each of its items, and its compares see what the reference kernel records of that step.
-/

namespace Vliw

open Name

/-- The index that path bits lead to. -/
def idxOf (bits : Nat → Nat) : Nat → Nat
  | 0 => 0
  | l + 1 => 2 * idxOf bits l + 1 + bits l

theorem idxOf_bounds {bits : Nat → Nat} {l : Nat} (hb : ∀ i < l, bits i < 2) :
    2 ^ l ≤ idxOf bits l + 1 ∧ idxOf bits l + 2 ≤ 2 ^ (l + 1) := by
  induction l with
  | zero => simp [idxOf]
  | succ l ih =>
      have hl := ih fun i hi => hb i (by omega)
      have hbit := hb l (by omega)
      rw [Nat.pow_succ, Nat.pow_succ] at *
      rw [idxOf]
      omega

theorem idxOf_congr {bits bits' : Nat → Nat} {l : Nat} (h : ∀ i < l, bits i = bits' i) : idxOf bits l = idxOf bits' l := by
  induction l with
  | zero => rfl
  | succ l ih => rw [idxOf, idxOf, ih fun i hi => h i (by omega), h l (by omega)]

/-- The value a lane carries before round `r`: after a deferred hash, the item's value xored with the constant. -/
def carried (tg : Toggles) (r : Nat) (p : Nat × Nat) : Nat := if repairs tg 10 r then p.2 ^^^ C5 else p.2

/-- A lane of group `g` before round `r`, for an item that is at index and value `p`. -/
structure Carries (tg : Toggles) (g r : Nat) (p : Nat × Nat) (f : Sym → Nat) : Prop where
  val : f (val g) = carried tg r p
  addr : r ≠ 0 → f (addr g) = 7 + p.1
  idx : p.1 = idxOf (fun l => f (path g l)) (level 10 r)
  bits : ∀ l < level 10 r, f (path g l) < 2
  lt : p.2 < WORD

/-- The vectors that a round prepares for its groups: the repaired root, and level 4 where it is selected. -/
structure Prepared (tg : Toggles) (t : Tree) (r : Nat) (f : Sym → Nat) : Prop where
  root : repairs tg 10 r = true → f tree0Xor5 = t.values.getD 0 0 ^^^ C5
  level4 : 0 < tg.preloadL4Groups → level 10 r = 4 → selectsL4 tg 10 r = true →
    ∀ i < 16, f (tree (15 + i)) = t.values.getD (15 + i) 0

def nodeLocal : Name → Bool
  | .t _ | nv => true
  | _ => false

section node

variable {mem : List Nat} {f : Sym → Nat} {tg : Toggles} {t : Tree} {r g base : Nat} {p : Nat × Nat} {E : TraceField → Nat → Prop}

theorem aluOp_sub {a b : Nat} (h : b ≤ a) (ha : a < WORD) : aluOp .sub a b = .ok (a - b) := by
  have hmod : ((a : Int) - b) % WORD = a - b := Int.emod_eq_of_lt (by omega) (by omega)
  rw [aluOp, hmod]
  congr 1
  omega

theorem bit_cases {n : Nat} (h : n < 2) : n = 0 ∨ n = 1 := by omega

theorem level1_lane (hc : Consts tg t f) (hb : ∀ l < 1, f (path g l) < 2) :
    LaneWp mem r base E [.vSelect nv (path g 0) (tree 2) (tree 1)]
      (fun f' => f' nv = t.values.getD (idxOf (fun l => f (path g l)) 1) 0 ∧ Frame nodeLocal f f') f := by
  apply LaneWp.frame
  · simp [Wp.cons, LaneObs, Op.lanewise, Op.laneStep, Op.lane, Op.dest?, Operand.base, hc.node, idxOf]
    rcases bit_cases (hb 0 (by omega)) with h₀ | h₀ <;> simp [h₀]
  · simp [Op.Writes, Op.dest?, Operand.base, nodeLocal]

theorem level2_lane (hc : Consts tg t f) (hb : ∀ l < 2, f (path g l) < 2) :
    LaneWp mem r base E [.vSelect (Name.t 1) (path g 0) (tree 5) (tree 3), .vSelect (Name.t 2) (path g 0) (tree 6) (tree 4),
      .vSelect nv (path g 1) (Name.t 2) (Name.t 1)]
      (fun f' => f' nv = t.values.getD (idxOf (fun l => f (path g l)) 2) 0 ∧ Frame nodeLocal f f') f := by
  apply LaneWp.frame
  · simp [Wp.cons, LaneObs, Op.lanewise, Op.laneStep, Op.lane, Op.dest?, Operand.base, hc.node, idxOf]
    rcases bit_cases (hb 0 (by omega)) with h₀ | h₀ <;> rcases bit_cases (hb 1 (by omega)) with h₁ | h₁ <;> simp [h₀, h₁]
  · simp [Op.Writes, Op.dest?, Operand.base, nodeLocal]

theorem Frame.bits {f' : Sym → Nat} (h : Frame nodeLocal f f') (l : Nat) : f' (path g l) = f (path g l) := h _ rfl

theorem constOf_nodeLocal {n : Name} (h : (constOf tg t n).isSome) : nodeLocal n = false := by
  rw [← Bool.not_eq_true]
  intro hn
  cases n with
  | t i | nv => simp [constOf] at h
  | _ => cases hn

/-- Recomputing the path bits from the address gives back the bits that led there. -/
theorem recompute_lane (hc : Consts tg t f) (ha : f (addr g) = 7 + idxOf (fun l => f (path g l)) 3) (hb : ∀ l < 3, f (path g l) < 2) :
    LaneWp mem r base E (if tg.recomputePathBits then [
      .vecElem .sub (Name.t 2) (addr g) (posFp 7),
      .vecElem .shr (path g 0) (Name.t 2) (constVec 2),
      .vecElem .shr (Name.t 1) (Name.t 2) (constVec 1),
      .vecElem .and (path g 1) (Name.t 1) (constVec 1),
      .vecElem .and (path g 2) (Name.t 2) (constVec 1)] else []) (Frame nodeLocal f) f := by
  split
  · have hoff : aluOp .sub (f (addr g)) (f (posFp 7)) = .ok (4 * f (path g 0) + 2 * f (path g 1) + f (path g 2)) := by
      have h₀ := hb 0 (by omega)
      have h₁ := hb 1 (by omega)
      have h₂ := hb 2 (by omega)
      have h7 : f (posFp 7) = 14 := hc (posFp 7) _ rfl
      rw [h7, ha, aluOp_sub (by simp only [idxOf]; omega) (by simp only [idxOf, WORD]; omega)]
      congr 1
      simp only [idxOf]
      omega
    have h1 : f (constVec 1) = 1 := hc.small (by decide)
    have h2 : f (constVec 2) = 2 := hc.small (by decide)
    have hwp : LaneWp mem r base E [
        .vecElem .sub (Name.t 2) (addr g) (posFp 7),
        .vecElem .shr (path g 0) (Name.t 2) (constVec 2),
        .vecElem .shr (Name.t 1) (Name.t 2) (constVec 1),
        .vecElem .and (path g 1) (Name.t 1) (constVec 1),
        .vecElem .and (path g 2) (Name.t 2) (constVec 1)] (fun f' => (∀ l < 3, f' (path g l) = f (path g l)) ∧
          Frame (fun n => nodeLocal n || n = path g 0 || n = path g 1 || n = path g 2) f f') f := by
      apply LaneWp.frame
      · simp only [Wp.cons, Op.laneStep, Op.lane, Operand.base, hoff]
        simp [LaneObs, Op.lanewise, Op.dest?, aluOp, h1, h2]
        intro l hl
        rcases bit_cases (hb 0 (by omega)) with h₀ | h₀ <;> rcases bit_cases (hb 1 (by omega)) with h₁ | h₁ <;>
          rcases bit_cases (hb 2 (by omega)) with h₂ | h₂ <;>
          obtain rfl | rfl | rfl : l = 0 ∨ l = 1 ∨ l = 2 := by omega
        all_goals
          simp [h₀, h₁, h₂, WORD]
      · simp [Op.Writes, Op.dest?, Operand.base, nodeLocal]
    refine hwp.mono ?_
    rintro f' ⟨hpath, hf⟩ n hn
    by_cases hp : n = path g 0 ∨ n = path g 1 ∨ n = path g 2
    · rcases hp with rfl | rfl | rfl
      · exact hpath 0 (by omega)
      · exact hpath 1 (by omega)
      · exact hpath 2 (by omega)
    · simp only [not_or] at hp
      exact hf n (by simp [hn, hp])
  · exact .refl _ f

theorem level3_lane (hc : Consts tg t f) (ha : f (addr g) = 7 + idxOf (fun l => f (path g l)) 3) (hb : ∀ l < 3, f (path g l) < 2) :
    LaneWp mem r base E (level3Slots tg g) (fun f' => f' nv = t.values.getD (idxOf (fun l => f (path g l)) 3) 0 ∧ Frame nodeLocal f f') f := by
  refine Wp.append.mpr ((recompute_lane hc ha hb).mono fun f₁ h₁ => ?_)
  have hc₁ : Consts tg t f₁ := hc.frame h₁ fun _ => constOf_nodeLocal
  refine (LaneWp.frame (W := nodeLocal) (Q := fun f' => f' nv = t.values.getD (idxOf (fun l => f (path g l)) 3) 0) ?_ ?_).mono
    fun f₂ h₂ => ⟨h₂.1, h₁.trans h₂.2⟩
  · simp [Wp.cons, LaneObs, Op.lanewise, Op.laneStep, Op.lane, Op.dest?, Operand.base, hc₁.node, idxOf, h₁.bits]
    rcases bit_cases (hb 0 (by omega)) with h₀ | h₀ <;> rcases bit_cases (hb 1 (by omega)) with h₁ | h₁ <;>
      rcases bit_cases (hb 2 (by omega)) with h₂ | h₂ <;> simp [h₀, h₁, h₂]
  · simp [Op.Writes, Op.dest?, Operand.base, nodeLocal]

theorem level4_lane (h4 : ∀ i < 16, f (tree (15 + i)) = t.values.getD (15 + i) 0) (hb : ∀ l < 4, f (path g l) < 2) :
    LaneWp mem r base E (level4Slots g) (fun f' => f' nv = t.values.getD (idxOf (fun l => f (path g l)) 4) 0 ∧ Frame nodeLocal f f') f := by
  have hnode : ∀ i, 15 ≤ i → i < 31 → f (tree i) = t.values.getD i 0 := by
    intro i hi hi'
    have := h4 (i - 15) (by omega)
    rwa [Nat.add_sub_cancel' hi] at this
  apply LaneWp.frame
  · simp [level4Slots, Wp.cons, LaneObs, Op.lanewise, Op.laneStep, Op.lane, Op.dest?, Operand.base, hnode, idxOf]
    rcases bit_cases (hb 0 (by omega)) with h₀ | h₀ <;> rcases bit_cases (hb 1 (by omega)) with h₁ | h₁ <;>
      rcases bit_cases (hb 2 (by omega)) with h₂ | h₂ <;> rcases bit_cases (hb 3 (by omega)) with h₃ | h₃ <;> simp [h₀, h₁, h₂, h₃]
  · simp [level4Slots, Op.Writes, Op.dest?, Operand.base, nodeLocal]

theorem level_le (r : Nat) : level 10 r ≤ 10 := Nat.le_of_lt_succ (Nat.mod_lt _ (by omega))

theorem repairs_of_level (h : level 10 r ≠ 0) : repairs tg 10 r = false := by
  simp [repairs, h]

theorem Carries.ne_zero (h : level 10 r ≠ 0) : r ≠ 0 := by
  rintro rfl
  exact h rfl

theorem Carries.idx_lt (h : Carries tg g r p f) : p.1 < 2047 := by
  have hpow : 2 ^ (level 10 r + 1) ≤ 2 ^ 11 := Nat.pow_le_pow_right (by omega) (by have := level_le r; omega)
  have := (idxOf_bounds h.bits).2
  rw [← h.idx] at this
  omega

/-- The tree as the rounds find it. -/
structure Planted (t : Tree) (mem : List Nat) : Prop where
  nodes : t.values.length = 2047
  word : ∀ v ∈ t.values, v < WORD
  mem : ∀ i < 2047, mem[7 + i]? = t.values[i]?

theorem Planted.node_lt (ht : Planted t mem) {i : Nat} (hi : i < 2047) : t.values.getD i 0 < WORD := by
  rw [List.getD_eq_getElem _ _ (by rw [ht.nodes]; exact hi)]
  exact ht.word _ (List.getElem_mem _)

theorem Planted.node (ht : Planted t mem) {i : Nat} (hi : i < 2047) : mem[7 + i]? = some (t.values.getD i 0) := by
  have hlt : i < t.values.length := by rw [ht.nodes]; exact hi
  rw [ht.mem _ hi, List.getElem?_eq_getElem hlt, List.getD_eq_getElem _ _ hlt]

theorem gather_lane (ht : Planted t mem) (ha : f (addr g) = 7 + p.1) (hlt : p.1 < 2047) :
    LaneWp mem r base E [.gather nv (addr g)] (fun f' => f' nv = t.values.getD p.1 0 ∧ Frame nodeLocal f f') f := by
  apply LaneWp.frame
  · simp only [Wp.cons, LaneObs, Op.lanewise, Op.laneStep, Op.lane, Operand.base, ha, at?_of_getElem? (ht.node hlt)]
    exact ⟨⟨trivial, by rw [INP_VALUES_P]; omega⟩, _, rfl, by simp [Op.dest?]⟩
  · simp [Op.Writes, Op.dest?, Operand.base, nodeLocal]

/-- Whatever way the kernel finds the node, it finds the node of the item; the root is found xored where the value is. -/
theorem nodeSlots_lane (ht : Planted t mem) (hc : Consts tg t f) (hr : Prepared tg t r f) (h : Carries tg g r p f) :
    LaneWp mem r base E (nodeSlots tg 10 r g).2 (fun f' => f' (nodeSlots tg 10 r g).1 =
      (if repairs tg 10 r then t.values.getD p.1 0 ^^^ C5 else t.values.getD p.1 0) ∧ Frame nodeLocal f f') f := by
  have hidx := h.idx
  have hbits := h.bits
  unfold nodeSlots
  split
  · next hl =>
      have hp : p.1 = 0 := by rw [hidx, hl, idxOf]
      obtain ⟨t0, ht0⟩ : ∃ t0, t0 = if tg.wrapRootC5Defer && r ≠ 0 then tree0Xor5 else tree 0 := ⟨_, rfl⟩
      have hroot : f t0 = if repairs tg 10 r then t.values.getD p.1 0 ^^^ C5 else t.values.getD p.1 0 := by
        have hrep : repairs tg 10 r = (tg.wrapRootC5Defer && r ≠ 0) := by simp [repairs, hl]
        rw [hp, ht0, hrep]
        split
        · next hw => exact hr.root (hrep.trans hw)
        · exact hc.node (by omega)
      have hword : f t0 < WORD := by
        rw [hroot]
        split
        · exact xor_lt (ht.node_lt h.idx_lt) (by decide)
        · exact ht.node_lt h.idx_lt
      rw [← ht0, ← hroot]
      dsimp only
      split
      · exact ⟨rfl, .refl _ f⟩
      · apply LaneWp.frame
        · have hzero : f (constVec 0) = 0 := hc.small (by decide)
          simp [Wp.cons, LaneObs, Op.lanewise, Op.laneStep, Op.lane, Op.dest?, Operand.base, aluOp, hzero, Nat.mod_eq_of_lt hword]
        · simp [Op.Writes, Op.dest?, Operand.base, nodeLocal]
  · next hl =>
      rw [repairs_of_level (by omega), hidx, hl]
      exact level1_lane hc (hl ▸ hbits)
  · next hl =>
      rw [repairs_of_level (by omega), hidx, hl]
      exact level2_lane hc (hl ▸ hbits)
  · next hl =>
      have ha := h.addr (Carries.ne_zero (by omega))
      rw [hidx, hl] at ha
      rw [repairs_of_level (by omega), hidx, hl]
      exact level3_lane hc ha (hl ▸ hbits)
  · next hl =>
      rw [repairs_of_level (by omega)]
      dsimp only
      split
      · next hsel =>
          rw [hidx, hl]
          exact level4_lane (hr.level4 (by omega) hl hsel.2) (hl ▸ hbits)
      · exact gather_lane ht (h.addr (Carries.ne_zero (by omega))) h.idx_lt
  · next h0 _ _ _ _ =>
      rw [repairs_of_level h0]
      exact gather_lane ht (h.addr (Carries.ne_zero h0)) h.idx_lt

end node
section group

variable {mem : List Nat} {f : Sym → Nat} {tg : Toggles} {t : Tree} {r g base : Nat} {p : Nat × Nat} {E : TraceField → Nat → Prop}

def updateLocal (g r : Nat) (n : Name) : Bool := n = addr g || n = path g (level 10 r) || n = .t 2

def groupLocal (g : Nat) : Name → Bool
  | val g' | addr g' | path g' _ => g' = g
  | .t _ | nv => true
  | _ => false

theorem groupLocal_false {n : Name} (h : groupLocal g n = false) (r : Nat) :
    (nodeLocal n || n = val g) = false ∧ updateLocal g r n = false := by
  cases n with
  | val g' | addr g' | path g' l =>
      have hg : g' ≠ g := by simpa [groupLocal] using h
      simp [nodeLocal, updateLocal, hg]
  | t i | nv => cases h
  | _ => exact ⟨rfl, rfl⟩

theorem level_succ (r : Nat) : level 10 (r + 1) = if level 10 r = 10 then 0 else level 10 r + 1 := by
  unfold level
  split <;> omega

/-- The next address, seven words past the next index. -/
theorem updateSlots_lane (hc : Consts tg t f) (ha : r ≠ 0 → f (addr g) = 7 + p.1) (h0 : r = 0 → p.1 = 0) (hlt : p.1 < 2047) :
    LaneWp mem r base E (updateSlots 10 r g) (fun f' => (if level 10 r = 10 then f' (addr g) = 7 else
      f' (path g (level 10 r)) = f (val g) % 2 ∧ f' (addr g) = 7 + (2 * p.1 + 1 + f (val g) % 2)) ∧ Frame (updateLocal g r) f f') f := by
  have h1 : f (constVec 1) = 1 := hc.small (by decide)
  have h2 : f (constVec 2) = 2 := hc.small (by decide)
  have hneg : f negFp1 = WORD - 6 := hc negFp1 _ rfl
  have hroot : aluOp .sub 1 (WORD - 6) = .ok 7 := rfl
  have hfirst : aluOp .sub 2 (WORD - 6) = .ok 8 := rfl
  unfold updateSlots
  split
  · apply LaneWp.frame
    · simp [Wp.cons, LaneObs, Op.lanewise, Op.laneStep, Op.lane, Op.dest?, Operand.base, h1, hneg, hroot]
    · simp [Op.Writes, Op.dest?, Operand.base, updateLocal]
  · apply LaneWp.frame
    · have hand : aluOp .and (f (val g)) 1 = .ok (f (val g) % 2) := by
        rw [aluOp, Nat.and_one_is_mod, Nat.mod_eq_of_lt (by rw [WORD]; omega)]
      have hsum : aluOp .add (8 + 2 * p.1) (f (val g) % 2) = .ok (7 + (2 * p.1 + 1 + f (val g) % 2)) := by
        rw [aluOp, Nat.mod_eq_of_lt (by rw [WORD]; omega)]
        congr 1
        omega
      split
      · next hr =>
          rw [h0 hr] at hsum
          simp [Wp.cons, LaneObs, Op.lanewise, Op.laneStep, Op.lane, Op.dest?, Operand.base, h1, h2, hneg, hand, hfirst, hsum, h0 hr]
      · next hr =>
          have hbase : (f (addr g) * 2 + (WORD - 6)) % WORD = 8 + 2 * p.1 := by
            rw [ha hr, WORD]
            omega
          simp [Wp.cons, LaneObs, Op.lanewise, Op.laneStep, Op.lane, Op.dest?, Operand.base, h1, h2, hneg, hand, hbase, hsum]
    · split <;> simp [Op.Writes, Op.dest?, Operand.base, updateLocal]

variable (tg r g) in
/-- The slots of a round of a group, short of the store of the last round. -/
def coreSlots (hash : List (Op Operand)) : List (Op Operand) :=
  (nodeSlots tg 10 r g).2 ++
  (if repairs tg 10 r then [] else
    [.debugVCompare (nodeSlots tg 10 r g).1 (laneKeys r (g * VLEN) .nodeVal), .debugVCompare (val g) (laneKeys r (g * VLEN) .val)]) ++
  [.vecElem .xor (val g) (val g) (nodeSlots tg 10 r g).1] ++ hash ++
  (if tg.wrapRootC5Defer && level 10 r = 10 then [] else [.debugVCompare (val g) (laneKeys r (g * VLEN) .hashedVal)]) ++
  updateSlots 10 r g

variable (tg r g) in
theorem groupSlots_ok (rounds : Nat) : ∃ hash,
    buildVecHash HASH_STAGES tg.fuseHashStages23 (val g) (Name.t 1) (Name.t 2) r (g * VLEN) (fmaVecConsts tg) irrVecConsts
      (tg.wrapRootC5Defer && level 10 r = 10) = .ok hash ∧
    groupSlots tg 10 rounds r g = .ok (coreSlots tg r g hash ++ if r = rounds - 1 then [.vStore (outAddr g) (val g)] else []) := by
  obtain ⟨hash, hhash⟩ := buildVecHash_ok tg (val g) (Name.t 1) (Name.t 2) r (g * VLEN) (tg.wrapRootC5Defer && level 10 r = 10)
  refine ⟨hash, hhash, ?_⟩
  simp only [groupSlots, hhash, bind_ok, coreSlots]

theorem compares_lane {Q : (Sym → Nat) → Prop} {l : List (Name × TraceField)} (hE : ∀ c ∈ l, E c.2 (f c.1)) (hQ : Q f) :
    LaneWp mem r base E (l.map fun c => .debugVCompare c.1 (laneKeys r base c.2)) Q f := by
  induction l with
  | nil => exact hQ
  | cons c l ih => exact ⟨⟨rfl, _, rfl, hE c (by simp)⟩, f, rfl, ih fun c' hc' => hE c' (by simp [hc'])⟩

theorem entry_lane (n : Name) : LaneWp mem r base E [.vecElem .xor (val g) (val g) n]
    (fun f' => f' (val g) = (f (val g) ^^^ f n) % WORD ∧ Frame (hashLocal g) f f') f := by
  apply LaneWp.frame
  · simp [Wp.cons, LaneObs, Op.lanewise, Op.laneStep, Op.lane, Op.dest?, Operand.base, aluOp]
  · simp [Op.Writes, Op.dest?, Operand.base, hashLocal]

/-- The entry xor repairs a value that was left xored. -/
theorem entry_value {a b : Nat} (ha : a < WORD) (hb : b < WORD) (rep : Bool) :
    ((if rep then a ^^^ C5 else a) ^^^ (if rep then b ^^^ C5 else b)) % WORD = a ^^^ b := by
  have hxor : (if rep then a ^^^ C5 else a) ^^^ (if rep then b ^^^ C5 else b) = a ^^^ b := by
    split
    · rw [Nat.xor_comm b, Nat.xor_assoc, Nat.xor_xor_cancel_left]
    · rfl
  rw [hxor, Nat.mod_eq_of_lt (xor_lt ha hb)]

theorem Carries.zero (h : Carries tg g r p f) (hr : r = 0) : p.1 = 0 := by
  rw [h.idx, hr]
  rfl

/-- The walk wraps at the leaves and nowhere else. -/
theorem Carries.step_fst (hn : t.values.length = 2047) (h : Carries tg g r p f) :
    (t.step p).1 = if level 10 r = 10 then 0 else 2 * p.1 + 1 + (t.step p).2 % 2 := by
  obtain ⟨hlo, hhi⟩ := idxOf_bounds h.bits
  rw [← h.idx] at hlo hhi
  simp only [Tree.step, hn]
  generalize myhash HASH_STAGES (p.2 ^^^ t.values.getD p.1 0) = v
  by_cases hl : level 10 r = 10
  · rw [hl] at hlo
    rw [if_pos hl, if_pos (by split <;> omega)]
  · have hpow : 2 ^ (level 10 r + 1) ≤ 2 ^ 10 := Nat.pow_le_pow_right (by omega) (by have := level_le r; omega)
    rw [if_neg hl, if_neg (by split <;> omega)]
    split <;> omega

theorem carried_succ (r : Nat) (p : Nat × Nat) :
    carried tg (r + 1) p = if tg.wrapRootC5Defer && level 10 r = 10 then p.2 ^^^ C5 else p.2 := by
  have hrep : repairs tg 10 (r + 1) = (tg.wrapRootC5Defer && level 10 r = 10) := by
    rw [repairs, level_succ]
    split <;> simp_all
  rw [carried, hrep]

theorem Carries.next (hn : t.values.length = 2047) (h : Carries tg g r p f) {f' : Sym → Nat}
    (hval : f' (Name.val g) = carried tg (r + 1) (t.step p)) (hpath : ∀ l, l ≠ level 10 r → f' (path g l) = f (path g l))
    (hupd : if level 10 r = 10 then f' (Name.addr g) = 7 else
      f' (path g (level 10 r)) = (t.step p).2 % 2 ∧ f' (Name.addr g) = 7 + (2 * p.1 + 1 + (t.step p).2 % 2)) :
    Carries tg g (r + 1) (t.step p) f' := by
  have hfst := h.step_fst hn
  by_cases hl : level 10 r = 10
  · rw [if_pos hl] at hupd hfst
    have hnext : level 10 (r + 1) = 0 := by rw [level_succ, if_pos hl]
    refine ⟨hval, fun _ => by rw [hfst, hupd], by rw [hfst, hnext, idxOf], fun l hlt => ?_, myhash_lt ..⟩
    rw [hnext] at hlt
    cases hlt
  · rw [if_neg hl] at hupd hfst
    have hnext : level 10 (r + 1) = level 10 r + 1 := by rw [level_succ, if_neg hl]
    have hbits : ∀ l < level 10 r, f' (path g l) = f (path g l) := fun l hlt => hpath l (by omega)
    refine ⟨hval, fun _ => by rw [hfst, hupd.2], ?_, fun l hlt => ?_, myhash_lt ..⟩
    · rw [hfst, hnext, idxOf, hupd.1, idxOf_congr hbits, ← h.idx]
    · rcases Nat.lt_succ_iff_lt_or_eq.mp (hnext ▸ hlt) with hlt | rfl
      · rw [hbits l hlt]
        exact h.bits l hlt
      · rw [hupd.1]
        omega

/-- A round of a group makes one step of its item, and its compares see what the step records. -/
theorem coreSlots_lane (ht : Planted t mem) (hc : Consts tg t f) (hr : Prepared tg t r f) (h : Carries tg g r p f) {hash : List (Op Operand)}
    (hhash : buildVecHash HASH_STAGES tg.fuseHashStages23 (val g) (Name.t 1) (Name.t 2) r (g * VLEN) (fmaVecConsts tg) irrVecConsts
      (tg.wrapRootC5Defer && level 10 r = 10) = .ok hash) :
    LaneWp mem r (g * VLEN) (fun field w => t.recorded p field = some w) (coreSlots tg r g hash)
      (fun f' => Carries tg g (r + 1) (t.step p) f' ∧ Frame (groupLocal g) f f') f := by
  have hkeep : ∀ {f f' : Sym → Nat}, Consts tg t f → Frame (hashLocal g) f f' → Consts tg t f' :=
    fun hc hf => hc.frame hf fun _ => constOf_hashLocal
  simp only [coreSlots, LaneWp, Wp.append]
  refine (nodeSlots_lane ht hc hr h).mono ?_
  rintro f₁ ⟨hnode, k₁⟩
  have hc₁ : Consts tg t f₁ := hc.frame k₁ fun _ => constOf_nodeLocal
  have hval₁ : f₁ (val g) = carried tg r p := (k₁ (val g) rfl).trans h.val
  -- the compares of the node and the value are there when both are what the reference has
  have hcmp : ∀ {Q : (Sym → Nat) → Prop}, Q f₁ → LaneWp mem r (g * VLEN) (fun field w => t.recorded p field = some w)
      (if repairs tg 10 r then [] else [.debugVCompare (nodeSlots tg 10 r g).1 (laneKeys r (g * VLEN) .nodeVal),
        .debugVCompare (val g) (laneKeys r (g * VLEN) .val)]) Q f₁ := by
    intro Q hQ
    split
    · exact hQ
    · next hrep =>
        rw [carried, if_neg hrep] at hval₁
        rw [if_neg hrep] at hnode
        refine compares_lane (l := [((nodeSlots tg 10 r g).1, .nodeVal), (val g, .val)]) ?_ hQ
        simp [Tree.recorded, hnode, hval₁]
  refine hcmp ?_
  refine (entry_lane _).mono ?_
  rintro f₂ ⟨hentry, k₂⟩
  have hc₂ := hkeep hc₁ k₂
  rw [hnode, hval₁, carried, entry_value h.lt (ht.node_lt h.idx_lt)] at hentry
  refine (hash_lane hc₂ (fun i => ?_) hhash).mono ?_
  · rw [Tree.recorded, if_pos i.isLt, hentry]
  rintro f₃ ⟨hval, k₃⟩
  rw [hentry] at hval
  have hc₃ := hkeep hc₂ k₃
  have hval₃ : f₃ (val g) = carried tg (r + 1) (t.step p) := by
    rw [hval, carried_succ, Tree.step]
  have hcmp₃ : ∀ {Q : (Sym → Nat) → Prop}, Q f₃ → LaneWp mem r (g * VLEN) (fun field w => t.recorded p field = some w)
      (if tg.wrapRootC5Defer && level 10 r = 10 then [] else [.debugVCompare (val g) (laneKeys r (g * VLEN) .hashedVal)]) Q f₃ := by
    intro Q hQ
    split
    · exact hQ
    · next hdefer =>
        rw [carried_succ, if_neg hdefer] at hval₃
        refine compares_lane (l := [(val g, .hashedVal)]) ?_ hQ
        simp [Tree.recorded, hval₃]
  refine hcmp₃ ?_
  have k : Frame (fun n => nodeLocal n || n = val g) f f₃ := by
    intro n hn
    simp only [Bool.or_eq_false_iff, decide_eq_false_iff_not] at hn
    have hl : hashLocal g n = false := by
      have ht : ∀ i, n ≠ .t i := by
        rintro i rfl
        cases hn.1
      simp [hashLocal, hn.2, ht]
    rw [k₃ n hl, k₂ n hl, k₁ n hn.1]
  refine (updateSlots_lane hc₃ (fun hr => by rw [k (addr g) rfl, h.addr hr]) h.zero h.idx_lt).mono ?_
  rintro f₄ ⟨hupd, k₄⟩
  refine ⟨h.next ht.nodes ((k₄ (val g) rfl).trans hval₃) ?_ ?_, ?_⟩
  · intro l hl
    rw [k₄ (path g l) (by simp [updateLocal, hl]), k (path g l) rfl]
  · split at hupd
    · next hl => rw [if_pos hl, hupd]
    · next hl =>
        rw [if_neg hl]
        have hplain : f₃ (val g) = (t.step p).2 := by
          rw [hval₃, carried_succ, if_neg (by simp [hl])]
        rw [← hplain]
        exact hupd
  · intro n hn
    obtain ⟨hk, hu⟩ := groupLocal_false hn r
    rw [k₄ n hu, k n hk]

end group
end Vliw
