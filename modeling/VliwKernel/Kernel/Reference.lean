import VliwKernel.Problem.Machine
import VliwKernel.Lib.Wp
import Mathlib.Data.Nat.Bitwise
import Mathlib.Logic.Function.Iterate

/-!
# The reference kernel

The hash, the flat memory image of a problem and the kernel that walks every item down the tree, round by round.
Each item is carried by its own pair of an index and a value: `referenceRounds_image` says what memory holds after
any number of rounds.
-/

namespace Vliw

/-- `Tree`: an implicit perfect binary tree with values on the nodes. -/
structure Tree where
  height : Nat
  values : List Nat

structure Input where
  indices : List Nat
  values : List Nat
  rounds : Nat

/-- The operators of the hash stages. -/
inductive HashOp | add | xor | shl | shr
  deriving DecidableEq, Repr

namespace HashOp

/-- `fns`. -/
def apply : HashOp → Nat → Nat → Nat
  | add, x, y => x + y
  | xor, x, y => x ^^^ y
  | shl, x, y => x <<< y
  | shr, x, y => x >>> y

end HashOp

structure HashStage where
  op1 : HashOp
  val1 : Nat
  op2 : HashOp
  op3 : HashOp
  val3 : Nat
  deriving DecidableEq, Repr

/-- A stage table with as many stages as `HASH_STAGES`. -/
abbrev HashTable := Fin 6 → HashStage

def HASH_STAGES : HashTable
  | 0 => ⟨.add, 0x7ED55D16, .add, .shl, 12⟩
  | 1 => ⟨.xor, 0xC761C23C, .xor, .shr, 19⟩
  | 2 => ⟨.add, 0x165667B1, .add, .shl, 5⟩
  | 3 => ⟨.add, 0xD3A2646C, .xor, .shl, 9⟩
  | 4 => ⟨.add, 0xFD7046C5, .add, .shl, 3⟩
  | 5 => ⟨.xor, 0xB55A4F09, .xor, .shr, 16⟩

def HashStage.apply (st : HashStage) (a : Nat) : Nat :=
  st.op2.apply (st.op1.apply a st.val1 % WORD) (st.op3.apply a st.val3 % WORD) % WORD

def myhash (T : HashTable) (a : Nat) : Nat := (List.finRange 6).foldl (fun a i => (T i).apply a) a

abbrev Trace := Dict TraceKey Nat

def myhashTraced (T : HashTable) (a : Nat) (trace : Trace) (round batch_i : Nat) : Nat × Trace :=
  (List.finRange 6).foldl (fun (a, trace) i =>
    ((T i).apply a, trace.set ⟨round, batch_i, .hashStage i⟩ ((T i).apply a))) (a, trace)

section stages

/-- The value after the first `n` stages. -/
def hashValue (T : HashTable) (a n : Nat) : Nat := ((List.finRange 6).take n).foldl (fun a i => (T i).apply a) a

theorem hashValue_succ (T : HashTable) (a : Nat) (i : Fin 6) : hashValue T a (i + 1) = (T i).apply (hashValue T a i) := by
  have htake : (List.finRange 6).take (i + 1) = (List.finRange 6).take i ++ [i] := by
    rw [List.take_add_one, List.getElem?_eq_getElem (by simp), List.getElem_finRange]
    rfl
  rw [hashValue, htake, List.foldl_append, List.foldl_cons, List.foldl_nil, hashValue]

theorem hashValue_zero (T : HashTable) (a : Nat) : hashValue T a 0 = a := rfl

theorem hashValue_last (T : HashTable) (a : Nat) : hashValue T a 6 = myhash T a := rfl

theorem myhashTraced_get? (T : HashTable) (a : Nat) (trace : Trace) (r b : Nat) (i : Fin 6) :
    (myhashTraced T a trace r b).2.get? ⟨r, b, .hashStage i⟩ = some (hashValue T a (i + 1)) := by
  have hrange : List.finRange 6 = [0, 1, 2, 3, 4, 5] := rfl
  have htrace : (myhashTraced T a trace r b).2 = [(0 : Fin 6), 1, 2, 3, 4, 5].foldl
      (fun trace i => trace.set ⟨r, b, .hashStage i⟩ (hashValue T a (i + 1))) trace := by
    simp only [myhashTraced, hashValue, hrange, List.foldl_cons, List.foldl_nil]
    rfl
  have hkey : Function.Injective fun i : Fin 6 => (⟨r, b, .hashStage i⟩ : TraceKey) := by
    intro i j h
    simpa [Fin.ext_iff] using h
  rw [htrace, ← hrange, Dict.get?_foldl_set hkey, if_pos (List.mem_finRange i)]

theorem myhashTraced_get?_of_ne (T : HashTable) (a : Nat) (trace : Trace) (r b : Nat) {key : TraceKey}
    (h : ∀ i, key ≠ ⟨r, b, .hashStage i⟩) : (myhashTraced T a trace r b).2.get? key = trace.get? key := by
  rw [myhashTraced]
  induction List.finRange 6 generalizing a trace with
  | nil => rfl
  | cons i l ih =>
      refine (ih _ _).trans ?_
      rw [Dict.get?_set, if_neg (h i)]

end stages

/-- `mem[a:b] = xs`. -/
def setSlice (mem : List Nat) (a b : Nat) (xs : List Nat) : List Nat := mem.take a ++ xs ++ mem.drop (max a b)

def buildMemImage (t : Tree) (inp : Input) : List Nat :=
  let header := 7
  let extraRoom := t.values.length + inp.indices.length * 2 + VLEN * 2 + 32
  let mem := List.replicate (header + t.values.length + inp.indices.length + inp.values.length + extraRoom) 0
  let forestValuesP := header
  let inpIndicesP := forestValuesP + t.values.length
  let inpValuesP := inpIndicesP + inp.values.length
  let extraRoom := inpValuesP + inp.values.length
  let mem := mem.set 0 inp.rounds
  let mem := mem.set 1 t.values.length
  let mem := mem.set 2 inp.indices.length
  let mem := mem.set 3 t.height
  let mem := mem.set 4 forestValuesP
  let mem := mem.set 5 inpIndicesP
  let mem := mem.set 6 inpValuesP
  let mem := mem.set 7 extraRoom
  let mem := setSlice mem header inpIndicesP t.values
  let mem := setSlice mem inpIndicesP inpValuesP inp.indices
  setSlice mem inpValuesP mem.length inp.values

structure Header where
  nNodes : Nat
  batchSize : Nat
  forestValuesP : Nat
  inpIndicesP : Nat
  inpValuesP : Nat

/-- The body of the inner loop of `reference_kernel2`: round `h`, item `i`. -/
def referenceItem (hd : Header) (h : Nat) (st : List Nat × Trace) (i : Nat) : Except PyErr (List Nat × Trace) := do
  let (mem, trace) := st
  let idx ← at? mem (hd.inpIndicesP + i)
  let trace := trace.set ⟨h, i, .idx⟩ idx
  let val ← at? mem (hd.inpValuesP + i)
  let trace := trace.set ⟨h, i, .val⟩ val
  let nodeVal ← at? mem (hd.forestValuesP + idx)
  let trace := trace.set ⟨h, i, .nodeVal⟩ nodeVal
  let (val, trace) := myhashTraced HASH_STAGES (val ^^^ nodeVal) trace h i
  let trace := trace.set ⟨h, i, .hashedVal⟩ val
  let idx := 2 * idx + if val % 2 = 0 then 1 else 2
  let trace := trace.set ⟨h, i, .nextIdx⟩ idx
  let idx := if hd.nNodes ≤ idx then 0 else idx
  let trace := trace.set ⟨h, i, .wrappedIdx⟩ idx
  .ok (← Machine.applyWrites [(hd.inpValuesP + i, val), (hd.inpIndicesP + i, idx)] mem, trace)

def referenceRounds (hd : Header) (n : Nat) (st : List Nat × Trace) : Except PyErr (List Nat × Trace) :=
  (List.range n).foldlM (fun st h => (List.range hd.batchSize).foldlM (referenceItem hd h) st) st

def readHeader (mem : List Nat) : Except PyErr (Nat × Header) := do
  let rounds ← at? mem 0
  let nNodes ← at? mem 1
  let batchSize ← at? mem 2
  let _forestHeight ← at? mem 3
  let forestValuesP ← at? mem 4
  let inpIndicesP ← at? mem 5
  let inpValuesP ← at? mem 6
  .ok (rounds, ⟨nNodes, batchSize, forestValuesP, inpIndicesP, inpValuesP⟩)

/-- `reference_kernel2`: the memory that the generator yields last, and the trace it has filled. -/
def referenceKernel2 (mem : List Nat) (trace : Trace) : Except PyErr (List Nat × Trace) := do
  let (rounds, hd) ← readHeader mem
  referenceRounds hd rounds (mem, trace)

/-- The canonical shape, on words: height 10, 2047 nodes, 256 items at the root. -/
structure Canonical (t : Tree) (inp : Input) : Prop where
  height : t.height = 10
  nodes : t.values.length = 2047
  node_lt : ∀ v ∈ t.values, v < WORD
  indices : inp.indices = List.replicate 256 0
  batch : inp.values.length = 256
  value_lt : ∀ v ∈ inp.values, v < WORD

/-- One round of one item, as a step on its index and value. -/
def Tree.step (t : Tree) (p : Nat × Nat) : Nat × Nat :=
  let val := myhash HASH_STAGES (p.2 ^^^ t.values.getD p.1 0)
  let idx := 2 * p.1 + if val % 2 = 0 then 1 else 2
  (if t.values.length ≤ idx then 0 else idx, val)

/-- What the trace holds of a step from `p`. -/
def Tree.recorded (t : Tree) (p : Nat × Nat) : TraceField → Option Nat
  | .idx => some p.1
  | .val => some p.2
  | .nodeVal => some (t.values.getD p.1 0)
  | .hashStage i => if i < 6 then some (hashValue HASH_STAGES (p.2 ^^^ t.values.getD p.1 0) (i + 1)) else none
  | .hashedVal => some (t.step p).2
  | .nextIdx => some (2 * p.1 + if (t.step p).2 % 2 = 0 then 1 else 2)
  | .wrappedIdx => some (t.step p).1

def item (t : Tree) (inp : Input) (n i : Nat) : Nat × Nat := t.step^[n] (0, inp.values.getD i 0)

theorem item_succ (t : Tree) (inp : Input) (n i : Nat) : item t inp (n + 1) i = t.step (item t inp n i) :=
  Function.iterate_succ_apply' ..

theorem Tree.step_lt {t : Tree} (ht : 0 < t.values.length) (p : Nat × Nat) : (t.step p).1 < t.values.length := by
  rw [Tree.step]
  dsimp only
  generalize 2 * p.1 + _ = idx
  split <;> omega

theorem item_lt {t : Tree} (ht : 0 < t.values.length) (inp : Input) (n i : Nat) : (item t inp n i).1 < t.values.length := by
  cases n with
  | zero => exact ht
  | succ n =>
      rw [item_succ]
      exact t.step_lt ht _

section layout

/-- The seven header words, the tree, the indices and the values. -/
def layout (t : Tree) (rounds : Nat) (idxs vals : List Nat) : List Nat :=
  [rounds, t.values.length, idxs.length, t.height, 7, 7 + t.values.length, 7 + t.values.length + vals.length] ++
    (t.values ++ (idxs ++ vals))

variable {t : Tree} {inp : Input} {rounds n i : Nat} {idxs vals : List Nat}

theorem setSlice_append (a b c xs : List Nat) : setSlice (a ++ (b ++ c)) a.length (a.length + b.length) xs = a ++ (xs ++ c) := by
  rw [setSlice, List.take_left, Nat.max_eq_right (Nat.le_add_right _ _), ← List.append_assoc a b c, ← List.length_append,
    List.drop_left, List.append_assoc]

theorem set_header (r : List Nat) (a₀ a₁ a₂ a₃ a₄ a₅ a₆ : Nat) : ((((((([0, 0, 0, 0, 0, 0, 0] ++ r).set 0 a₀).set 1 a₁).set 2 a₂).set 3
    a₃).set 4 a₄).set 5 a₅).set 6 a₆ = [a₀, a₁, a₂, a₃, a₄, a₅, a₆] ++ r := rfl

theorem buildMemImage_eq (ht : 0 < t.values.length) (h : inp.indices.length = inp.values.length) :
    buildMemImage t inp = layout t inp.rounds inp.indices inp.values := by
  obtain ⟨x, y, e, hx, hy, hrep⟩ : ∃ x y e : List Nat, x.length = t.values.length ∧ y.length = inp.values.length ∧
      List.replicate (7 + t.values.length + inp.indices.length + inp.values.length +
        (t.values.length + inp.indices.length * 2 + VLEN * 2 + 32)) 0 = [0, 0, 0, 0, 0, 0, 0] ++ (x ++ (y ++ e)) := by
    refine ⟨.replicate t.values.length 0, .replicate inp.values.length 0,
      .replicate (inp.values.length + (t.values.length + inp.indices.length * 2 + VLEN * 2 + 32)) 0, by simp, by simp, ?_⟩
    rw [List.replicate_append_replicate, List.replicate_append_replicate,
      show [0, 0, 0, 0, 0, 0, 0] = List.replicate 7 0 from rfl, List.replicate_append_replicate]
    congr 1
    omega
  obtain ⟨hd, hhd⟩ : ∃ hd, hd = [inp.rounds, t.values.length, inp.indices.length, t.height, 7, 7 + t.values.length,
    7 + t.values.length + inp.values.length] := ⟨_, rfl⟩
  have hlen : hd.length = 7 := hhd ▸ rfl
  have hx' : (x.set 0 (7 + t.values.length + inp.values.length + inp.values.length)).length = t.values.length := by
    rw [List.length_set, hx]
  have hset : ∀ v, (hd ++ (x ++ (y ++ e))).set 7 v = hd ++ (x.set 0 v ++ (y ++ e)) := by
    intro v
    rw [List.set_append, if_neg (by omega), hlen, Nat.sub_self, List.set_append, if_pos (by omega)]
  have hnodes := setSlice_append hd (x.set 0 (7 + t.values.length + inp.values.length + inp.values.length)) (y ++ e) t.values
  have hidxs := setSlice_append (hd ++ t.values) y e inp.indices
  have hvals := setSlice_append (hd ++ t.values ++ inp.indices) e [] inp.values
  rw [hlen, hx'] at hnodes
  rw [List.length_append, hlen, hy] at hidxs
  rw [List.length_append, List.length_append, hlen, h, List.append_nil] at hvals
  simp only [buildMemImage, hrep, set_header, ← hhd]
  rw [hset, hnodes, ← List.append_assoc hd, hidxs,
    ← List.append_assoc (hd ++ t.values)]
  have htotal : (hd ++ t.values ++ inp.indices ++ e).length = 7 + t.values.length + inp.values.length + e.length := by
    simp [hlen, h, Nat.add_assoc]
  rw [htotal, hvals, layout, hhd]
  simp

theorem layout_node (hi : i < t.values.length) : (layout t rounds idxs vals)[7 + i]? = t.values[i]? := by
  rw [layout, List.getElem?_append_right (by simp), List.getElem?_append_left (by simpa using hi)]
  simp

theorem layout_idx (hi : i < idxs.length) : (layout t rounds idxs vals)[7 + t.values.length + i]? = idxs[i]? := by
  rw [layout, List.getElem?_append_right (by simp; omega), List.getElem?_append_right (by simp; omega),
    List.getElem?_append_left (by simp; omega)]
  congr 1
  simp
  omega

theorem layout_val (hidx : idxs.length = n) (hval : vals.length = n) : (layout t rounds idxs vals)[7 + t.values.length + n + i]? = vals[i]? := by
  rw [layout, List.getElem?_append_right (by simp; omega), List.getElem?_append_right (by simp; omega),
    List.getElem?_append_right (by simp; omega)]
  congr 1
  simp
  omega

theorem layout_set_idx (v : Nat) (hi : i < idxs.length) :
    (layout t rounds idxs vals).set (7 + t.values.length + i) v = layout t rounds (idxs.set i v) vals := by
  rw [layout, List.set_append, if_neg (by simp; omega), List.set_append, if_neg (by simp; omega), List.set_append, if_pos (by simp; omega),
    layout, List.length_set]
  congr 4
  simp
  omega

theorem layout_set_val (v : Nat) (hidx : idxs.length = n) (hval : vals.length = n) :
    (layout t rounds idxs vals).set (7 + t.values.length + n + i) v = layout t rounds idxs (vals.set i v) := by
  rw [layout, List.set_append, if_neg (by simp; omega), List.set_append, if_neg (by simp; omega), List.set_append, if_neg (by simp; omega),
    layout, List.length_set]
  congr 4
  simp
  omega

theorem length_layout : (layout t rounds idxs vals).length = 7 + t.values.length + idxs.length + vals.length := by
  simp [layout]
  omega

end layout
section rounds

variable {t : Tree} {inp : Input} {rounds h i idx val : Nat} {idxs vals : List Nat}

def Header.of (t : Tree) (n : Nat) : Header := ⟨t.values.length, n, 7, 7 + t.values.length, 7 + t.values.length + n⟩

theorem readHeader_layout (hidx : idxs.length = i) (hval : vals.length = i) : readHeader (layout t rounds idxs vals) = .ok (rounds, .of t i) := by
  simp only [readHeader, layout, at?, hidx, hval]
  rfl

theorem myhashTraced_fst (T : HashTable) (a : Nat) (trace : Trace) (r b : Nat) : (myhashTraced T a trace r b).1 = myhash T a := by
  rw [myhashTraced, myhash]
  induction List.finRange 6 generalizing a trace with
  | nil => rfl
  | cons i l ih => exact ih _ _

theorem at?_of_getElem? {xs : List Nat} {x : Nat} (h : xs[i]? = some x) : at? xs i = .ok x := by
  rw [at?, h]

/-- The trace holds what round `h` has recorded of item `i`, which was at `p`. -/
def Trace.Holds (trace : Trace) (t : Tree) (h i : Nat) (p : Nat × Nat) : Prop :=
  ∀ field w, t.recorded p field = some w → trace.get? ⟨h, i, field⟩ = some w

theorem Trace.Holds.frame {trace trace' : Trace} {h' i' : Nat} {p : Nat × Nat} (hold : trace.Holds t h' i' p)
    (hframe : ∀ key : TraceKey, ¬(key.round = h ∧ key.item = i) → trace'.get? key = trace.get? key) (hne : ¬(h' = h ∧ i' = i)) :
    trace'.Holds t h' i' p :=
  fun field w hw => (hframe ⟨h', i', field⟩ hne).trans (hold field w hw)

theorem referenceItem_layout (hlen : idxs.length = vals.length) (hidx : idxs[i]? = some idx) (hval : vals[i]? = some val)
    (hlt : idx < t.values.length) (trace : Trace) :
    ∃ trace', referenceItem (.of t vals.length) h (layout t rounds idxs vals, trace) i =
        .ok (layout t rounds (idxs.set i (t.step (idx, val)).1) (vals.set i (t.step (idx, val)).2), trace') ∧
      trace'.Holds t h i (idx, val) ∧ ∀ key : TraceKey, ¬(key.round = h ∧ key.item = i) → trace'.get? key = trace.get? key := by
  have hi : i < idxs.length := (List.getElem?_eq_some_iff.mp hidx).1
  have h₁ : at? (layout t rounds idxs vals) (7 + t.values.length + i) = .ok idx := at?_of_getElem? (by rw [layout_idx hi, hidx])
  have h₂ : at? (layout t rounds idxs vals) (7 + t.values.length + vals.length + i) = .ok val :=
    at?_of_getElem? (by rw [layout_val hlen rfl, hval])
  have h₃ : at? (layout t rounds idxs vals) (7 + idx) = .ok (t.values.getD idx 0) := by
    apply at?_of_getElem?
    rw [layout_node hlt, List.getElem?_eq_getElem hlt, List.getD_eq_getElem _ _ hlt]
  have hwrites : ∀ v w, Machine.applyWrites [(7 + t.values.length + vals.length + i, v), (7 + t.values.length + i, w)]
      (layout t rounds idxs vals) = .ok (layout t rounds (idxs.set i w) (vals.set i v)) := by
    intro v w
    simp only [Machine.applyWrites, List.length_set, length_layout]
    rw [if_pos (by omega), if_pos (by omega), layout_set_val _ hlen rfl, layout_set_idx _ hi]
  simp only [referenceItem, Header.of, h₁, h₂, h₃, bind_ok, myhashTraced_fst, hwrites, Tree.step]
  refine ⟨_, rfl, ?_, ?_⟩
  · intro field w hw
    cases field with
    | hashStage k =>
        rw [Tree.recorded] at hw
        split at hw
        · next hk =>
            cases hw
            simpa [Dict.get?_set] using myhashTraced_get? HASH_STAGES (val ^^^ t.values.getD idx 0) _ h i ⟨k, hk⟩
        · cases hw
    | _ => simpa [Dict.get?_set, myhashTraced_get?_of_ne, Tree.recorded, Tree.step] using hw
  · intro key hkey
    have hne : ∀ field, key ≠ ⟨h, i, field⟩ := by
      rintro field rfl
      exact hkey ⟨rfl, rfl⟩
    simp only [Dict.get?_set, hne, if_false]
    rw [myhashTraced_get?_of_ne _ _ _ _ _ fun k => hne _]
    simp only [Dict.get?_set, hne, if_false]

/-- Memory when round `h` has done `i` items. -/
def walked (t : Tree) (inp : Input) (h i : Nat) : List Nat :=
  layout t inp.rounds ((List.range inp.values.length).map fun k => (item t inp (if k < i then h + 1 else h) k).1)
    ((List.range inp.values.length).map fun k => (item t inp (if k < i then h + 1 else h) k).2)

theorem walked_item (ht : 0 < t.values.length) (hi : i < inp.values.length) (trace : Trace) : ∃ trace',
    referenceItem (.of t inp.values.length) h (walked t inp h i, trace) i = .ok (walked t inp h (i + 1), trace') ∧
      trace'.Holds t h i (item t inp h i) ∧ ∀ key : TraceKey, ¬(key.round = h ∧ key.item = i) → trace'.get? key = trace.get? key := by
  have hset : ∀ (f : Nat × Nat → Nat), ((List.range inp.values.length).map fun k => f (item t inp (if k < i then h + 1 else h) k)).set i
      (f (t.step (item t inp h i))) = (List.range inp.values.length).map fun k => f (item t inp (if k < i + 1 then h + 1 else h) k) := by
    intro f
    apply List.ext_getElem (by simp)
    intro k hk hk'
    simp only [List.length_map, List.length_range] at hk'
    simp only [List.getElem_set, List.getElem_map, List.getElem_range]
    rcases Nat.lt_trichotomy i k with hik | rfl | hki
    · rw [if_neg (by omega), if_neg (by omega), if_neg (by omega)]
    · rw [if_pos rfl, if_pos (by omega), item_succ]
    · rw [if_neg (by omega), if_pos hki, if_pos (by omega)]
  have hlen : ∀ f : Nat → Nat, inp.values.length = ((List.range inp.values.length).map f).length := fun f => by simp
  have hget : ∀ f : Nat × Nat → Nat, ((List.range inp.values.length).map fun k => f (item t inp (if k < i then h + 1 else h) k))[i]? =
      some (f (item t inp h i)) := fun f => by simp [hi]
  obtain ⟨trace', hitem, hrec⟩ := referenceItem_layout (by simp) (hget Prod.fst) (hget Prod.snd) (item_lt ht inp h i) trace
  rw [← hlen, hset Prod.fst, hset Prod.snd] at hitem
  exact ⟨trace', hitem, hrec⟩

/-- Every round below `n` is recorded, and so are the first `k` items of round `n`. -/
def Trace.Covers (trace : Trace) (t : Tree) (inp : Input) (n k : Nat) : Prop :=
  ∀ h i, h < n ∧ i < inp.values.length ∨ h = n ∧ i < k → trace.Holds t h i (item t inp h i)

theorem walked_round (ht : 0 < t.values.length) (h : Nat) (st : List Nat × Trace) (hst : st.1 = walked t inp h 0)
    (hrec : st.2.Covers t inp h 0) :
    ∃ st', (List.range inp.values.length).foldlM (referenceItem (.of t inp.values.length) h) st = .ok st' ∧
      st'.1 = walked t inp (h + 1) 0 ∧ st'.2.Covers t inp (h + 1) 0 := by
  have hwp : Wp (referenceItem (.of t inp.values.length) h) (fun _ _ => True) (List.range inp.values.length)
      (fun st => st.1 = walked t inp h inp.values.length ∧ st.2.Covers t inp h inp.values.length) st := by
    refine Wp.range (I := fun i (st : List Nat × Trace) => st.1 = walked t inp h i ∧ st.2.Covers t inp h i) (fun i hi st hst => ?_)
      ⟨hst, hrec⟩
    obtain ⟨mem, tr⟩ := st
    obtain ⟨rfl, hcov⟩ := hst
    obtain ⟨tr', hitem, hnew, hframe⟩ := walked_item ht hi tr
    refine ⟨trivial, _, hitem, rfl, fun h' i' hlt => ?_⟩
    by_cases heq : h' = h ∧ i' = i
    · obtain ⟨rfl, rfl⟩ := heq
      exact hnew
    · exact (hcov h' i' (by omega)).frame hframe heq
  have hmap : ∀ f : Nat × Nat → Nat, ((List.range inp.values.length).map fun k =>
      f (item t inp (if k < inp.values.length then h + 1 else h) k)) =
      (List.range inp.values.length).map fun k => f (item t inp (if k < 0 then h + 1 + 1 else h + 1) k) := by
    intro f
    apply List.map_congr_left
    intro k hk
    rw [if_pos (List.mem_range.mp hk), if_neg (Nat.not_lt_zero k)]
  obtain ⟨st', hrun, hst', hcov⟩ := hwp.foldlM
  exact ⟨st', hrun, by rw [hst', walked, hmap Prod.fst, hmap Prod.snd, walked], fun h' i' hlt => hcov h' i' (by omega)⟩

/-- Memory after `n` rounds: every item has made `n` steps, all of them recorded. -/
theorem referenceRounds_walked (inp : Input) (ht : 0 < t.values.length) (n : Nat) (trace : Trace) : ∃ trace',
    referenceRounds (.of t inp.values.length) n (walked t inp 0 0, trace) = .ok (walked t inp n 0, trace') ∧
      trace'.Covers t inp n 0 := by
  have hwp : Wp (fun st h => (List.range inp.values.length).foldlM (referenceItem (.of t inp.values.length) h) st) (fun _ _ => True)
      (List.range n) (fun st : List Nat × Trace => st.1 = walked t inp n 0 ∧ st.2.Covers t inp n 0) (walked t inp 0 0, trace) := by
    refine Wp.range (I := fun h (st : List Nat × Trace) => st.1 = walked t inp h 0 ∧ st.2.Covers t inp h 0)
      (fun h _ st hst => ⟨trivial, walked_round ht h st hst.1 hst.2⟩) ⟨rfl, fun h i hlt => ?_⟩
    omega
  obtain ⟨⟨mem, trace'⟩, hrun, rfl, hcov⟩ := hwp.foldlM
  exact ⟨trace', hrun, hcov⟩

theorem buildMemImage_walked (ht : 0 < t.values.length) (hinp : inp.indices = List.replicate inp.values.length 0) :
    buildMemImage t inp = walked t inp 0 0 := by
  rw [buildMemImage_eq ht (by rw [hinp, List.length_replicate]), walked]
  congr 1
  · rw [hinp]
    apply List.ext_getElem (by simp)
    intro k hk hk'
    simp [item]
  · apply List.ext_getElem (by simp)
    intro k hk hk'
    simp [item, hk]

theorem walked_idx (hi : i < inp.values.length) :
    (walked t inp h 0)[7 + t.values.length + i]? = some (item t inp h i).1 := by
  rw [walked, layout_idx (by simpa using hi)]
  simp [hi]

theorem walked_val (hi : i < inp.values.length) :
    (walked t inp h 0)[7 + t.values.length + inp.values.length + i]? = some (item t inp h i).2 := by
  rw [walked, layout_val (by simp) (by simp)]
  simp [hi]

theorem readHeader_walked (h i : Nat) : readHeader (walked t inp h i) = .ok (inp.rounds, .of t inp.values.length) :=
  readHeader_layout (by simp) (by simp)

/-- What the reference kernel leaves behind: every item after `rounds` steps, and a trace of them. -/
theorem referenceKernel2_image (ht : 0 < t.values.length) (hinp : inp.indices = List.replicate inp.values.length 0) (trace : Trace) :
    ∃ trace', referenceKernel2 (buildMemImage t inp) trace = .ok (walked t inp inp.rounds 0, trace') ∧
      trace'.Covers t inp inp.rounds 0 := by
  obtain ⟨trace', hrun, hcov⟩ := referenceRounds_walked inp ht inp.rounds trace
  refine ⟨trace', ?_, hcov⟩
  rw [referenceKernel2, buildMemImage_walked ht hinp, readHeader_walked, bind_ok]
  exact hrun

end rounds
end Vliw
