import VliwKernel.Ir
import Mathlib.Data.Nat.Digits.Defs

/-!
# The symbols of the kernel

The variables that `build_kernel` declares, under the names and shapes it gives them. Two variables never share
a name: each can be read off the letters and the digits of its name.
-/

namespace Vliw

/-- `init_vars`: the header words, in the order of memory. -/
inductive HeaderVar | rounds | nNodes | batchSize | forestHeight | forestValuesP | inpIndicesP | inpValuesP
  deriving DecidableEq, Repr

def INIT_VARS : List HeaderVar := [.rounds, .nNodes, .batchSize, .forestHeight, .forestValuesP, .inpIndicesP, .inpValuesP]

def HeaderVar.name : HeaderVar → String
  | rounds => "rounds"
  | nNodes => "n_nodes"
  | batchSize => "batch_size"
  | forestHeight => "forest_height"
  | forestValuesP => "forest_values_p"
  | inpIndicesP => "inp_indices_p"
  | inpValuesP => "inp_values_p"

/-- `t i` is `t1` to `t4`, `K i` is `K0_vec` to `K5_vec` and `K23_vec`, `posFp i` is `pos_fp5_vec` and `pos_fp7_vec`,
`treePreload i` is `tree_preload` for 0 and `tree_preload2` to `tree_preload4`. -/
inductive Name
  | val (g : Nat) | addr (g : Nat) | path (g l : Nat) | outAddr (g : Nat)
  | t (i : Nat) | nv
  | constVec (v : Nat) | K (i : Nat) | K2S9
  | forestP | negFp1 | posFp (i : Nat)
  | treePreload (i : Nat) | tree (i : Nat) | tree0Xor5
  | l4PlA | l4PlB | l4Addr
  | eight | header (v : HeaderVar) | addrA | constScalar (v : Nat)
  deriving DecidableEq, Repr

namespace Name

def sym : Name → Sym
  | val g => ⟨"val[" ++ g.repr ++ "]", true⟩
  | addr g => ⟨"addr[" ++ g.repr ++ "]", true⟩
  | path g l => ⟨"path[" ++ g.repr ++ "][" ++ l.repr ++ "]", true⟩
  | outAddr g => ⟨"out_addr[" ++ g.repr ++ "]", false⟩
  | t i => ⟨"t" ++ i.repr, true⟩
  | nv => ⟨"nv", true⟩
  | constVec v => ⟨"const_vec_" ++ v.repr, true⟩
  | K i => ⟨"K" ++ i.repr ++ "_vec", true⟩
  | K2S9 => ⟨"K2S9_vec", true⟩
  | forestP => ⟨"forest_p_vec", true⟩
  | negFp1 => ⟨"neg_fp1_vec", true⟩
  | posFp i => ⟨"pos_fp" ++ i.repr ++ "_vec", true⟩
  | treePreload i => ⟨if i = 0 then "tree_preload" else "tree_preload" ++ i.repr, true⟩
  | tree i => ⟨"tree" ++ i.repr ++ "_vec", true⟩
  | tree0Xor5 => ⟨"tree0_xor5_vec", true⟩
  | l4PlA => ⟨"l4_pl_a", true⟩
  | l4PlB => ⟨"l4_pl_b", true⟩
  | l4Addr => ⟨"l4_addr", false⟩
  | eight => ⟨"eight", false⟩
  | header v => ⟨v.name, false⟩
  | addrA => ⟨"addr_a", false⟩
  | constScalar v => ⟨"const_" ++ v.repr, false⟩

instance : Coe Name Sym := ⟨sym⟩

instance : Coe Name Operand := ⟨fun n => .sym n.sym⟩

section injective

/-- The number that the digits of a name spell. -/
def number (cs : List Char) : Nat := Nat.ofDigitChars 10 (cs.filter Char.isDigit) 0

/-- A variable from its name: its letters say which kind it is. -/
def decode (cs : List Char) : Option Name :=
  ([("val[]", val (number cs)), ("addr[]", addr (number cs)),
    ("path[][]", path (number (cs.takeWhile (· ≠ ']'))) (number (cs.dropWhile (· ≠ ']')))),
    ("out_addr[]", outAddr (number cs)), ("t", t (number cs)), ("nv", nv), ("const_vec_", constVec (number cs)),
    ("K_vec", K (number cs)), ("KS_vec", K2S9), ("forest_p_vec", forestP), ("neg_fp_vec", negFp1), ("pos_fp_vec", posFp (number cs)),
    ("tree_preload", treePreload (number cs)), ("tree_vec", tree (number cs)), ("tree_xor_vec", tree0Xor5), ("l_pl_a", l4PlA),
    ("l_pl_b", l4PlB), ("l_addr", l4Addr), ("eight", eight), ("rounds", header .rounds), ("n_nodes", header .nNodes),
    ("batch_size", header .batchSize), ("forest_height", header .forestHeight), ("forest_values_p", header .forestValuesP),
    ("inp_indices_p", header .inpIndicesP), ("inp_values_p", header .inpValuesP), ("addr_a", addrA),
    ("const_", constScalar (number cs))] : List (String × Name)).lookup (.ofList (cs.filter fun c => !c.isDigit))

theorem isDigit_of_mem_repr {n : Nat} {c : Char} (h : c ∈ Nat.toDigits 10 n) : c.isDigit = true :=
  Nat.isDigit_of_mem_toDigits (by omega) (by omega) h

theorem filter_digits (n : Nat) : (Nat.toDigits 10 n).filter Char.isDigit = Nat.toDigits 10 n :=
  List.filter_eq_self.mpr fun _ => isDigit_of_mem_repr

theorem filter_letters (n : Nat) : (Nat.toDigits 10 n).filter (fun c => !c.isDigit) = [] :=
  List.filter_eq_nil_iff.mpr fun _ h => by simp [isDigit_of_mem_repr h]

theorem bracket_notMem (n : Nat) : ∀ c ∈ Nat.toDigits 10 n, decide (c ≠ ']') = true := by
  intro c hc
  have := isDigit_of_mem_repr hc
  rw [decide_eq_true_eq]
  rintro rfl
  cases this

theorem decode_sym (n : Name) : decode n.sym.name.toList = some n := by
  cases n with
  | path g l =>
      have hcs : ("path[" ++ g.repr ++ "][" ++ l.repr ++ "]").toList =
          "path[".toList ++ (Nat.toDigits 10 g ++ ']' :: '[' :: (Nat.toDigits 10 l ++ [']'])) := by
        simp [Nat.toList_repr]
      have hpath : ∀ c ∈ "path[".toList, decide (c ≠ ']') = true := by simp
      have htake : (sym (path g l)).name.toList.takeWhile (· ≠ ']') = "path[".toList ++ Nat.toDigits 10 g := by
        rw [sym, hcs, List.takeWhile_append_of_pos hpath, List.takeWhile_append_of_pos (bracket_notMem g)]
        simp
      have hdrop : (sym (path g l)).name.toList.dropWhile (· ≠ ']') = ']' :: '[' :: (Nat.toDigits 10 l ++ [']']) := by
        rw [sym, hcs, List.dropWhile_append_of_pos hpath, List.dropWhile_append_of_pos (bracket_notMem g)]
        rfl
      rw [decode, htake, hdrop, sym, hcs]
      simp [number, filter_digits, filter_letters]
      rfl
  | header v => cases v <;> rfl
  | treePreload i =>
      by_cases hi : i = 0
      · subst hi
        rfl
      · simp [sym, hi, decode, number, filter_digits, filter_letters, Nat.toList_repr]
        rfl
  | val g | addr g | outAddr g | t i | constVec v | K i | posFp i | tree i | constScalar v =>
      simp [sym, decode, number, filter_digits, filter_letters, Nat.toList_repr] <;> rfl
  | _ => rfl

/-- Two variables never share a name. -/
@[simp] theorem sym_inj {m n : Name} : m.sym = n.sym ↔ m = n := by
  refine ⟨fun h => ?_, congrArg sym⟩
  have hdecode := congrArg (fun s : Sym => decode s.name.toList) h
  simpa only [decode_sym, Option.some.injEq] using hdecode

end injective

end Name
end Vliw
