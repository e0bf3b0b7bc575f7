import VliwKernel.Kernel.Hash
import Mathlib.Data.Nat.Bitwise
import Mathlib.Data.Nat.ModEq
import Mathlib.Data.Set.Finite.Basic
import Mathlib.Order.Interval.Set.Basic

/-!
# The hash loses nothing

Each stage of the hash can be undone: a left shift makes every bit of the result depend on the same bit and lower ones, a
right shift on the same bit and higher ones. So the hash is a permutation of the words, and a walk that has not wrapped can
be traced back to the value it started with. Once it has wrapped it may have met another.
-/

namespace Vliw

/-- A stage that mixes by one of the operators that can be undone bit by bit. -/
def HashStage.Invertible (st : HashStage) : Prop :=
  0 < st.val3 ∧ ((st.op1 = .add ∨ st.op1 = .xor) ∧ (st.op2 = .add ∨ st.op2 = .xor) ∧ st.op3 = .shl ∨
    st.op1 = .xor ∧ st.op2 = .xor ∧ st.op3 = .shr)

section stage

variable {op : HashOp} {st : HashStage} {m a b x x' y y' : Nat}

theorem mod_word_mod (hm : m ≤ 32) (x : Nat) : x % WORD % 2 ^ m = x % 2 ^ m :=
  Nat.mod_mod_of_dvd _ (pow_dvd_pow 2 hm)

/-- With equal second arguments the low bits of a mix tell the low bits of its first arguments. -/
theorem mix_mod (hop : op = .add ∨ op = .xor) (hy : y % 2 ^ m = y' % 2 ^ m) :
    op.apply x y % 2 ^ m = op.apply x' y' % 2 ^ m ↔ x % 2 ^ m = x' % 2 ^ m := by
  rcases hop with rfl | rfl
  · constructor
    · exact fun h => Nat.ModEq.add_right_cancel hy h
    · exact fun h => Nat.ModEq.add h hy
  · show (x ^^^ y) % 2 ^ m = (x' ^^^ y') % 2 ^ m ↔ _
    rw [Nat.xor_mod_two_pow, Nat.xor_mod_two_pow, hy, Nat.xor_left_inj]

theorem shl_mod (hab : a % 2 ^ m = b % 2 ^ m) {k : Nat} (hk : 0 < k) : (a <<< k) % 2 ^ (m + 1) = (b <<< k) % 2 ^ (m + 1) := by
  obtain ⟨k, rfl⟩ := Nat.exists_eq_succ_of_ne_zero (Nat.ne_of_gt hk)
  rw [Nat.shiftLeft_eq, Nat.shiftLeft_eq, pow_succ 2 m, pow_succ 2 k, ← mul_assoc, ← mul_assoc]
  exact Nat.ModEq.mul_right' 2 (Nat.ModEq.mul_right (2 ^ k) hab)

/-- What two words have in common below bit `m` they have in common below bit `m + 1`, if a stage takes them to one word. -/
theorem low_bits (hop1 : st.op1 = .add ∨ st.op1 = .xor) (hop2 : st.op2 = .add ∨ st.op2 = .xor) (hop3 : st.op3 = .shl) (hk : 0 < st.val3)
    (h : st.apply a = st.apply b) (hm : m ≤ 32) : a % 2 ^ m = b % 2 ^ m := by
  induction m with
  | zero => rw [pow_zero, Nat.mod_one, Nat.mod_one]
  | succ m ih =>
      have hlow := ih (Nat.le_of_succ_le hm)
      -- the shifted words agree one bit further than the words do
      have hshift : st.op3.apply a st.val3 % WORD % 2 ^ (m + 1) = st.op3.apply b st.val3 % WORD % 2 ^ (m + 1) := by
        rw [mod_word_mod hm, mod_word_mod hm, hop3]
        exact shl_mod hlow hk
      have hmix := congrArg (· % 2 ^ (m + 1)) h
      simp only [HashStage.apply, mod_word_mod hm] at hmix
      rw [mix_mod hop2 hshift, mod_word_mod hm, mod_word_mod hm, mix_mod hop1 rfl] at hmix
      exact hmix

theorem eq_zero_of_shr {d k : Nat} (hk : 0 < k) (h : d >>> k = d) : d = 0 := by
  rw [Nat.shiftRight_eq_div_pow] at h
  by_contra hd
  exact absurd h (Nat.ne_of_lt (Nat.div_lt_self (Nat.pos_of_ne_zero hd) (Nat.one_lt_two_pow (Nat.ne_of_gt hk))))

/-- Two words that an xor stage takes to one word are the same: their difference is a number that the shift leaves as it is. -/
theorem high_bits (hop1 : st.op1 = .xor) (hop2 : st.op2 = .xor) (hop3 : st.op3 = .shr) (hk : 0 < st.val3) (ha : a < WORD) (hb : b < WORD)
    (h : st.apply a = st.apply b) : a = b := by
  have hmod : ∀ x y : Nat, (x ^^^ y) % WORD = x % WORD ^^^ y % WORD := fun _ _ => Nat.xor_mod_two_pow
  have happly : ∀ {x}, x < WORD → st.apply x = (x ^^^ x >>> st.val3) ^^^ st.val1 % WORD := by
    intro x hx
    have hshift : x >>> st.val3 < WORD := Nat.lt_of_le_of_lt (Nat.shiftRight_le _ _) hx
    rw [HashStage.apply, hop1, hop2, hop3]
    simp only [HashOp.apply, hmod, Nat.mod_mod, Nat.mod_eq_of_lt hx, Nat.mod_eq_of_lt hshift]
    rw [Nat.xor_assoc, Nat.xor_comm (st.val1 % WORD), ← Nat.xor_assoc]
  rw [happly ha, happly hb, Nat.xor_left_inj] at h
  have hfix : (a ^^^ b) >>> st.val3 = a ^^^ b := by
    rw [Nat.shiftRight_xor_distrib]
    calc a >>> st.val3 ^^^ b >>> st.val3
        = a ^^^ (a ^^^ a >>> st.val3) ^^^ b >>> st.val3 := by rw [← Nat.xor_assoc, Nat.xor_self, Nat.zero_xor]
      _ = a ^^^ (b ^^^ b >>> st.val3) ^^^ b >>> st.val3 := by rw [h]
      _ = a ^^^ b := by rw [Nat.xor_assoc, Nat.xor_assoc, Nat.xor_self, Nat.xor_zero]
  exact Nat.xor_eq_zero_iff.mp (eq_zero_of_shr hk hfix)

theorem HashStage.Invertible.injOn (hst : st.Invertible) : Set.InjOn st.apply (Set.Iio WORD) := by
  intro a ha b hb h
  obtain ⟨hk, ⟨hop1, hop2, hop3⟩ | ⟨hop1, hop2, hop3⟩⟩ := hst
  · have hlow : a % WORD = b % WORD := low_bits hop1 hop2 hop3 hk h (Nat.le_refl 32)
    rwa [Nat.mod_eq_of_lt ha, Nat.mod_eq_of_lt hb] at hlow
  · exact high_bits hop1 hop2 hop3 hk ha hb h

end stage
section hash

variable {T : HashTable}

/-- The stages of `HASH_STAGES` can be undone. -/
theorem HASH_STAGES_invertible (i : Fin 6) : (HASH_STAGES i).Invertible := by
  unfold HashStage.Invertible
  revert i
  decide

/-- A hash by stages that can be undone is a permutation of the words. -/
theorem myhash_bijOn (hT : ∀ i, (T i).Invertible) : Set.BijOn (myhash T) (Set.Iio WORD) (Set.Iio WORD) := by
  have hloop : ∀ l : List (Fin 6), Set.MapsTo (fun a => l.foldl (fun a i => (T i).apply a) a) (Set.Iio WORD) (Set.Iio WORD) ∧
      Set.InjOn (fun a => l.foldl (fun a i => (T i).apply a) a) (Set.Iio WORD) := by
    intro l
    induction l with
    | nil => exact ⟨fun _ ha => ha, fun _ _ _ _ h => h⟩
    | cons i l ih =>
        have hstage : Set.MapsTo (T i).apply (Set.Iio WORD) (Set.Iio WORD) := fun a _ => (T i).apply_lt a
        exact ⟨ih.1.comp hstage, ih.2.comp (hT i).injOn hstage⟩
  obtain ⟨hmaps, hinj⟩ := hloop (List.finRange 6)
  exact ((Set.finite_lt_nat WORD).injOn_iff_bijOn_of_mapsTo hmaps).mp hinj

end hash
section walk

variable {t : Tree}

/-- The tree has all the nodes of its height, with words on them. -/
structure Tree.Perfect (t : Tree) : Prop where
  nodes : t.values.length = 2 ^ (t.height + 1) - 1
  word : ∀ v ∈ t.values, v < WORD

theorem Tree.Perfect.node_lt (ht : t.Perfect) (i : Nat) : t.values.getD i 0 < WORD := by
  rcases Nat.lt_or_ge i t.values.length with hi | hi
  · rw [List.getD_eq_getElem _ _ hi]
    exact ht.word _ (List.getElem_mem hi)
  · rw [List.getD_eq_default _ _ hi]
    decide

theorem Tree.Perfect.nonempty (ht : t.Perfect) : 0 < t.values.length := by
  have := Nat.one_le_two_pow (n := t.height)
  rw [ht.nodes, pow_succ]
  omega

theorem Tree.step_fst (t : Tree) (v : Nat) : ∃ c, 1 ≤ c ∧ c ≤ 2 ∧ ∀ p, (t.step p).2 = v →
    (t.step p).1 = if t.values.length ≤ 2 * p.1 + c then 0 else 2 * p.1 + c := by
  refine ⟨if v % 2 = 0 then 1 else 2, ?_, ?_, ?_⟩
  · split <;> decide
  · split <;> decide
  · rintro p rfl
    rfl

/-- A step inside the tree can be undone: the index tells the parent, and the hash the value. -/
theorem Tree.Perfect.step_inj (ht : t.Perfect) {p q : Nat × Nat} (hp : 2 * p.1 + 2 < t.values.length) (hq : 2 * q.1 + 2 < t.values.length)
    (hpv : p.2 < WORD) (hqv : q.2 < WORD) (h : t.step p = t.step q) : p = q := by
  obtain ⟨c, hc1, hc2, hc⟩ := t.step_fst (t.step q).2
  -- with equal values both steps take the same child
  have hidx := congrArg Prod.fst h
  rw [hc p (congrArg Prod.snd h), hc q rfl, if_neg (by omega), if_neg (by omega)] at hidx
  have hsame : p.1 = q.1 := by omega
  have hval : myhash HASH_STAGES (p.2 ^^^ t.values.getD p.1 0) = myhash HASH_STAGES (q.2 ^^^ t.values.getD q.1 0) := congrArg Prod.snd h
  have hinput := (myhash_bijOn HASH_STAGES_invertible).injOn (xor_lt hpv (ht.node_lt _)) (xor_lt hqv (ht.node_lt _)) hval
  rw [hsame, Nat.xor_left_inj] at hinput
  exact Prod.ext hsame hinput

/-- After `n` steps a walk is still above level `n + 1`. -/
theorem Tree.walk_index (t : Tree) (v n : Nat) : (t.step^[n] (0, v)).1 + 2 ≤ 2 ^ (n + 1) := by
  induction n with
  | zero => exact Nat.le_refl 2
  | succ n ih =>
      rw [Function.iterate_succ_apply']
      obtain ⟨c, -, hc2, hc⟩ := t.step_fst (t.step (t.step^[n] (0, v))).2
      rw [hc _ rfl, pow_succ]
      split <;> omega

theorem Tree.walk_word (t : Tree) {v : Nat} (hv : v < WORD) (n : Nat) : (t.step^[n] (0, v)).2 < WORD := by
  cases n with
  | zero => exact hv
  | succ n =>
      rw [Function.iterate_succ_apply']
      exact myhash_lt HASH_STAGES _

/-- Before its last level a walk on a perfect tree has both children below it. -/
theorem Tree.Perfect.walk_inside (ht : t.Perfect) {n : Nat} (hn : n + 1 ≤ t.height) (v : Nat) :
    2 * (t.step^[n] (0, v)).1 + 2 < t.values.length := by
  have hidx := t.walk_index v n
  have hpow : 2 ^ (n + 1 + 1) ≤ 2 ^ (t.height + 1) := Nat.pow_le_pow_right (by decide) (Nat.succ_le_succ hn)
  rw [pow_succ] at hpow
  rw [ht.nodes]
  omega

/-- Up to the height of the tree a walk can be traced back to the value it started with. -/
theorem Tree.Perfect.walk_injOn (ht : t.Perfect) {n : Nat} (hn : n ≤ t.height) : Set.InjOn (fun v => t.step^[n] (0, v)) (Set.Iio WORD) := by
  induction n with
  | zero => exact fun _ _ _ _ h => congrArg Prod.snd h
  | succ n ih =>
      intro v hv w hw h
      dsimp only at h
      rw [Function.iterate_succ_apply', Function.iterate_succ_apply'] at h
      apply ih (Nat.le_of_succ_le hn) hv hw
      exact ht.step_inj (ht.walk_inside hn v) (ht.walk_inside hn w) (t.walk_word hv n) (t.walk_word hw n) h

structure Input.AtRoot (inp : Input) : Prop where
  indices : inp.indices = List.replicate inp.values.length 0
  word : ∀ v ∈ inp.values, v < WORD

/-- The memories of two images are the same only if their indices and values are. -/
theorem layout_inj {r r' : Nat} {is is' vs vs' : List Nat} (h : layout t r is vs = layout t r' is' vs') : r = r' ∧ is = is' ∧ vs = vs' := by
  simp only [layout, List.cons_append, List.nil_append, List.cons.injEq, true_and] at h
  obtain ⟨hr, hlen, -, h⟩ := h
  obtain ⟨his, hvs⟩ := List.append_inj (List.append_cancel_left h) hlen
  exact ⟨hr, his, hvs⟩

/-- The memory that is left of a batch tells it, when the walk is not longer than the tree is high. -/
theorem Tree.Perfect.walked_inj {inp inp' : Input} (ht : t.Perfect) (hinp : inp.AtRoot) (hinp' : inp'.AtRoot) (hr : inp.rounds ≤ t.height)
    (h : walked t inp inp.rounds 0 = walked t inp' inp'.rounds 0) : inp = inp' := by
  obtain ⟨hrounds, hidx, hval⟩ := layout_inj h
  simp only [Nat.not_lt_zero, if_false] at hidx hval
  have hlen : inp.values.length = inp'.values.length := by simpa using congrArg List.length hval
  have hvalues : inp.values = inp'.values := by
    apply List.ext_getElem hlen
    intro k hk hk'
    have hitem : item t inp inp.rounds k = item t inp' inp'.rounds k := by
      apply Prod.ext
      · simpa [hk, hk'] using congrArg (·[k]?) hidx
      · simpa [hk, hk'] using congrArg (·[k]?) hval
    rw [item, item, ← hrounds, List.getD_eq_getElem _ _ hk, List.getD_eq_getElem _ _ hk'] at hitem
    exact ht.walk_injOn hr (hinp.word _ (List.getElem_mem hk)) (hinp'.word _ (List.getElem_mem hk')) hitem
  obtain ⟨indices, values, rounds⟩ := inp
  obtain ⟨indices', values', rounds'⟩ := inp'
  obtain rfl : values = values' := hvalues
  obtain rfl : rounds = rounds' := hrounds
  obtain rfl : indices = indices' := hinp.indices.trans hinp'.indices.symm
  rfl

end walk

section tight

/-- A step from a node with a zero on it, to a child. -/
def descend (p : Nat × Nat) : Nat × Nat :=
  let val := myhash HASH_STAGES p.2
  (2 * p.1 + if val % 2 = 0 then 1 else 2, val)

theorem descend_eq (p : Nat × Nat) :
    descend p = (2 * p.1 + (if myhash HASH_STAGES p.2 % 2 = 0 then 1 else 2), myhash HASH_STAGES p.2) := rfl

theorem Tree.step_eq {t : Tree} {p : Nat × Nat} {v : Nat} (hv : myhash HASH_STAGES (p.2 ^^^ t.values.getD p.1 0) = v) :
    t.step p = (if t.values.length ≤ 2 * p.1 + (if v % 2 = 0 then 1 else 2) then 0 else 2 * p.1 + (if v % 2 = 0 then 1 else 2), v) := by
  subst hv
  rfl

/-- The perfect tree of height `h` with a one on node `k` and zeroes on the others. -/
def markedTree (h k : Nat) : Tree := ⟨h, (List.replicate (2 ^ (h + 1) - 1) 0).set k 1⟩

variable {h k n : Nat}

theorem markedTree_length : (markedTree h k).values.length = 2 ^ (h + 1) - 1 := by
  rw [markedTree, List.length_set, List.length_replicate]

theorem markedTree_perfect (h k : Nat) : (markedTree h k).Perfect where
  nodes := markedTree_length
  word := by
    intro v hv
    rcases List.mem_or_eq_of_mem_set hv with hv | rfl
    · rw [List.eq_of_mem_replicate hv]
      exact WORD_pos
    · decide

theorem markedTree_other {i : Nat} (hi : i ≠ k) : (markedTree h k).values.getD i 0 = 0 := by
  rw [markedTree, List.getD_eq_getElem?_getD, List.getElem?_set_ne hi.symm, List.getElem?_replicate]
  split <;> rfl

theorem markedTree_self (hk : k + 2 ≤ 2 ^ (h + 1)) : (markedTree h k).values.getD k 0 = 1 := by
  have hlt : k < (List.replicate (2 ^ (h + 1) - 1) 0).length := by
    rw [List.length_replicate]
    omega
  rw [markedTree, List.getD_eq_getElem?_getD, List.getElem?_set_self hlt]
  rfl

theorem descend_level (v n : Nat) : 2 ^ n ≤ (descend^[n] (0, v)).1 + 1 ∧ (descend^[n] (0, v)).1 + 2 ≤ 2 ^ (n + 1) := by
  induction n with
  | zero => exact ⟨Nat.le_refl 1, Nat.le_refl 2⟩
  | succ n ih =>
      obtain ⟨hlow, hhigh⟩ := ih
      rw [Function.iterate_succ_apply', pow_succ 2 (n + 1), pow_succ, descend_eq]
      rw [pow_succ] at hhigh
      generalize myhash HASH_STAGES _ = v
      dsimp only
      split <;> omega

theorem descend_value (v n : Nat) : (descend^[n] (0, v)).2 = (myhash HASH_STAGES)^[n] v := by
  induction n with
  | zero => rfl
  | succ n ih =>
      rw [Function.iterate_succ_apply', Function.iterate_succ_apply', ← ih]
      rfl

/-- An even value leads to the left, an odd one to the right. -/
theorem descend_side (p : Nat × Nat) : (descend p).1 % 2 ≠ (descend p).2 % 2 := by
  rw [descend_eq]
  dsimp only
  generalize myhash HASH_STAGES p.2 = v
  split <;> omega

/-- Until it reaches the leaves a walk does not notice the mark on one of them. -/
theorem markedTree_walk (hk : 2 ^ h ≤ k + 1) (v : Nat) (hn : n ≤ h) : (markedTree h k).step^[n] (0, v) = descend^[n] (0, v) := by
  induction n with
  | zero => rw [Function.iterate_zero, Function.iterate_zero]
  | succ n ih =>
      rw [Function.iterate_succ_apply', Function.iterate_succ_apply', ih (Nat.le_of_succ_le hn)]
      have hlevel := (descend_level v n).2
      have hpow : 2 ^ (n + 1) ≤ 2 ^ h := Nat.pow_le_pow_right (by decide) hn
      generalize descend^[n] (0, v) = p at hlevel
      have hother : p.1 ≠ k := by omega
      have hval : myhash HASH_STAGES (p.2 ^^^ (markedTree h k).values.getD p.1 0) = myhash HASH_STAGES p.2 := by
        rw [markedTree_other hother, Nat.xor_zero]
      rw [Tree.step_eq hval, descend_eq, markedTree_length, if_neg]
      generalize myhash HASH_STAGES p.2 = v
      rw [pow_succ]
      split <;> omega

theorem markedTree_leaf {p : Nat × Nat} {v : Nat} (hp : 2 ^ h ≤ p.1 + 1)
    (hv : myhash HASH_STAGES (p.2 ^^^ (markedTree h k).values.getD p.1 0) = v) : (markedTree h k).step p = (0, v) := by
  rw [Tree.step_eq hv, markedTree_length, if_pos]
  rw [pow_succ]
  split <;> omega

/-- Two words whose walks meet at the root again, one round after the leaves. -/
theorem walks_meet (hh : 0 < h) : ∃ k a b, a < WORD ∧ b < WORD ∧ a ≠ b ∧
    (markedTree h k).step^[h + 1] (0, a) = (markedTree h k).step^[h + 1] (0, b) := by
  have hbij := (myhash_bijOn HASH_STAGES_invertible).iterate h
  obtain ⟨a, ha, hav⟩ := hbij.surjOn (show 0 ∈ Set.Iio WORD from WORD_pos)
  obtain ⟨b, hb, hbv⟩ := hbij.surjOn (show 1 ∈ Set.Iio WORD by decide)
  rw [← descend_value] at hav hbv
  have hside : ∀ v, (descend^[h] (0, v)).1 % 2 ≠ (descend^[h] (0, v)).2 % 2 := by
    intro v
    obtain ⟨n, rfl⟩ := Nat.exists_eq_add_of_lt hh
    rw [Function.iterate_succ_apply']
    exact descend_side _
  -- so the two walks end on different leaves, and a one on the second makes up for the difference in value
  have hleaf : (descend^[h] (0, a)).1 ≠ (descend^[h] (0, b)).1 := by
    have hleft := hside a
    have hright := hside b
    rw [hav] at hleft
    rw [hbv] at hright
    omega
  refine ⟨(descend^[h] (0, b)).1, a, b, ha, hb, ?_, ?_⟩
  · rintro rfl
    exact hleaf rfl
  · have hlowa := (descend_level a h).1
    have hlowb := (descend_level b h).1
    have hmark := @markedTree_self h _ (descend_level b h).2
    rw [Function.iterate_succ_apply', Function.iterate_succ_apply', markedTree_walk hlowb a le_rfl, markedTree_walk hlowb b le_rfl]
    generalize descend^[h] (0, a) = p at *
    generalize descend^[h] (0, b) = q at *
    have hmeet : p.2 ^^^ (markedTree h q.1).values.getD p.1 0 = q.2 ^^^ (markedTree h q.1).values.getD q.1 0 := by
      rw [markedTree_other hleaf, hmark, hav, hbv, Nat.xor_self, Nat.xor_self]
    rw [markedTree_leaf hlowa (congrArg _ hmeet), markedTree_leaf hlowb rfl]

theorem walked_single {t : Tree} {a b r : Nat} (hmeet : t.step^[n] (0, a) = t.step^[n] (0, b)) :
    walked t ⟨[0], [a], r⟩ n 0 = walked t ⟨[0], [b], r⟩ n 0 := by
  have hitem : ∀ v, walked t ⟨[0], [v], r⟩ n 0 = layout t r [(t.step^[n] (0, v)).1] [(t.step^[n] (0, v)).2] := fun _ => rfl
  rw [hitem, hitem, hmeet]

end tight

/-- The hash is a permutation of the words, and two batches leave the same memory after at most as many rounds as the tree is
high only if they are the same batch. One round more, and two batches can meet, on a tree of any height but the lone root. -/
theorem reference_injective :
    Set.BijOn (myhash HASH_STAGES) (Set.Iio WORD) (Set.Iio WORD) ∧
    (∀ (t : Tree) (inp inp' : Input) (trace trace' : Trace), t.Perfect → inp.AtRoot → inp'.AtRoot → inp.rounds ≤ t.height →
      ∃ mem out mem' out', referenceKernel2 (buildMemImage t inp) trace = .ok (mem, out) ∧
        referenceKernel2 (buildMemImage t inp') trace' = .ok (mem', out') ∧ (mem = mem' ↔ inp = inp')) ∧
    ∀ h, 0 < h → ∃ (t : Tree) (inp inp' : Input), t.height = h ∧ t.Perfect ∧ inp.AtRoot ∧ inp'.AtRoot ∧ inp.rounds = h + 1 ∧ inp ≠ inp' ∧
      ∀ trace trace', ∃ mem out out', referenceKernel2 (buildMemImage t inp) trace = .ok (mem, out) ∧
        referenceKernel2 (buildMemImage t inp') trace' = .ok (mem, out') := by
  refine ⟨myhash_bijOn HASH_STAGES_invertible, ?_, ?_⟩
  · intro t inp inp' trace trace' ht hinp hinp' hr
    obtain ⟨out, hrun, -⟩ := referenceKernel2_image ht.nonempty hinp.indices trace
    obtain ⟨out', hrun', -⟩ := referenceKernel2_image ht.nonempty hinp'.indices trace'
    refine ⟨_, out, _, out', hrun, hrun', ?_⟩
    constructor
    · exact ht.walked_inj hinp hinp' hr
    · rintro rfl
      rfl
  · intro h hh
    obtain ⟨k, a, b, ha, hb, hab, hmeet⟩ := walks_meet hh
    have hroot : ∀ {v}, v < WORD → (Input.mk [0] [v] (h + 1)).AtRoot := fun hv => ⟨rfl, List.forall_mem_singleton.mpr hv⟩
    refine ⟨markedTree h k, ⟨[0], [a], h + 1⟩, ⟨[0], [b], h + 1⟩, rfl, markedTree_perfect h k, hroot ha, hroot hb, rfl, ?_, ?_⟩
    · intro heq
      exact hab (List.cons.inj (congrArg Input.values heq)).1
    · intro trace trace'
      obtain ⟨out, hrun, -⟩ := referenceKernel2_image (markedTree_perfect h k).nonempty (hroot ha).indices trace
      obtain ⟨out', hrun', -⟩ := referenceKernel2_image (markedTree_perfect h k).nonempty (hroot hb).indices trace'
      refine ⟨_, out, out', hrun, hrun'.trans ?_⟩
      rw [walked_single hmeet]

/-- On a tree with two levels, two values that differ by a bit leave two memories after one round. After two rounds some two
batches leave one memory. -/
theorem reference_injective_small : (∃ mem out mem' out',
    referenceKernel2 (buildMemImage ⟨1, [3, 4, 5]⟩ ⟨[0], [6], 1⟩) .empty = .ok (mem, out) ∧
    referenceKernel2 (buildMemImage ⟨1, [3, 4, 5]⟩ ⟨[0], [7], 1⟩) .empty = .ok (mem', out') ∧ mem ≠ mem') ∧
    ∃ (t : Tree) (inp inp' : Input) (mem : List Nat) (out out' : Trace), t.height = 1 ∧ inp.rounds = 2 ∧ inp ≠ inp' ∧
      referenceKernel2 (buildMemImage t inp) .empty = .ok (mem, out) ∧ referenceKernel2 (buildMemImage t inp') .empty = .ok (mem, out') := by
  constructor
  · obtain ⟨mem, out, mem', out', hrun, hrun', hiff⟩ := reference_injective.2.1 ⟨1, [3, 4, 5]⟩ ⟨[0], [6], 1⟩ ⟨[0], [7], 1⟩ .empty .empty
      ⟨rfl, by decide⟩ ⟨rfl, by decide⟩ ⟨rfl, by decide⟩ (Nat.le_refl 1)
    exact ⟨mem, out, mem', out', hrun, hrun', fun h => absurd (congrArg Input.values (hiff.mp h)) (by decide)⟩
  · obtain ⟨t, inp, inp', hheight, -, -, -, hrounds, hne, hruns⟩ := reference_injective.2.2 1 Nat.one_pos
    obtain ⟨mem, out, out', hrun, hrun'⟩ := hruns .empty .empty
    exact ⟨t, inp, inp', mem, out, out', hheight, hrounds, hne, hrun, hrun'⟩

end Vliw
