import VliwKernel.Kernel.Reference

/-!
# The reference kernel on lists

`reference_kernel` walks the items of a batch in the lists of the problem; `reference_kernel2` does so in the flat image.
Item by item the image stays the layout of the lists, so the two agree.
-/

namespace Vliw

/-- The body of the inner loop of `reference_kernel`. -/
def listItem (t : Tree) (inp : Input) (i : Nat) : Except PyErr Input := do
  let idx ← at? inp.indices i
  let val ← at? inp.values i
  let val := myhash HASH_STAGES (val ^^^ (← at? t.values idx))
  let idx := 2 * idx + if val % 2 = 0 then 1 else 2
  let idx := if t.values.length ≤ idx then 0 else idx
  .ok { inp with values := inp.values.set i val, indices := inp.indices.set i idx }

/-- `reference_kernel`, with the problem as it leaves it. -/
def referenceKernel (t : Tree) (inp : Input) : Except PyErr Input :=
  (List.range inp.rounds).foldlM (fun inp _ => (List.range inp.indices.length).foldlM (listItem t) inp) inp

section lockstep

variable {t : Tree} {inp out : Input} {st st' : List Nat × Trace} {rounds n h i idx val : Nat}

/-- One pass of the inner loop is one step of its item. -/
theorem listItem_eq (hidx : inp.indices[i]? = some idx) (hval : inp.values[i]? = some val) (hlt : idx < t.values.length) :
    listItem t inp i =
      .ok { inp with indices := inp.indices.set i (t.step (idx, val)).1, values := inp.values.set i (t.step (idx, val)).2 } := by
  have hnode : at? t.values idx = .ok (t.values.getD idx 0) :=
    at?_of_getElem? (by rw [List.getElem?_eq_getElem hlt, List.getD_eq_getElem _ _ hlt])
  simp only [listItem, at?_of_getElem? hidx, at?_of_getElem? hval, hnode, bind_ok, Tree.step]

/-- The image lays out the lists of `n` items, which are all in the tree. -/
structure LaidOut (t : Tree) (rounds n : Nat) (inp : Input) (st : List Nat × Trace) : Prop where
  mem : st.1 = layout t rounds inp.indices inp.values
  indices : inp.indices.length = n
  values : inp.values.length = n
  below : ∀ idx ∈ inp.indices, idx < t.values.length

theorem LaidOut.item (hl : LaidOut t rounds n inp st) (ht : 0 < t.values.length) (hi : i < n) : ∃ inp' st',
    listItem t inp i = .ok inp' ∧ referenceItem (.of t n) h st i = .ok st' ∧ LaidOut t rounds n inp' st' := by
  obtain ⟨mem, trace⟩ := st
  obtain ⟨rfl, hidx, rfl, hbelow⟩ := hl
  have hlen : i < inp.indices.length := hidx ▸ hi
  have hidx' : inp.indices[i]? = some inp.indices[i] := List.getElem?_eq_getElem hlen
  have hval : inp.values[i]? = some inp.values[i] := List.getElem?_eq_getElem hi
  have hlt := hbelow _ (List.getElem_mem hlen)
  obtain ⟨trace', hitem, -, -⟩ := referenceItem_layout (h := h) hidx hidx' hval hlt trace
  refine ⟨_, _, listItem_eq hidx' hval hlt, hitem, rfl, by simpa using hidx, by simp, fun idx hmem => ?_⟩
  rcases List.mem_or_eq_of_mem_set hmem with hmem | rfl
  · exact hbelow idx hmem
  · exact t.step_lt ht _

theorem LaidOut.round (hl : LaidOut t rounds n inp st) (ht : 0 < t.values.length) (h : Nat) : ∃ inp' st',
    (List.range inp.indices.length).foldlM (listItem t) inp = .ok inp' ∧
      (List.range n).foldlM (referenceItem (.of t n) h) st = .ok st' ∧ LaidOut t rounds n inp' st' := by
  rw [hl.indices]
  exact foldlM_lockstep (fun i hi _ _ hl => hl.item ht (List.mem_range.mp hi)) hl

theorem LaidOut.kernel (hl : LaidOut t rounds n inp st) (ht : 0 < t.values.length) : ∃ out st',
    referenceKernel t inp = .ok out ∧ referenceRounds (.of t n) inp.rounds st = .ok st' ∧ LaidOut t rounds n out st' :=
  foldlM_lockstep (fun h _ _ _ hl => hl.round ht h) hl

end lockstep

section agreement

variable {t : Tree} {inp : Input}

def slice (mem : List Nat) (a n : Nat) : List Nat := (mem.drop a).take n

theorem slice_append {xs ys zs : List Nat} {a : Nat} (h : xs.length = a) : slice (xs ++ (ys ++ zs)) a ys.length = ys := by
  rw [slice, ← h, List.drop_left, List.take_left]

/-- The header and the tree, in front of the lists. -/
theorem layout_eq (t : Tree) (rounds : Nat) (idxs vals : List Nat) : layout t rounds idxs vals =
    ([rounds, t.values.length, idxs.length, t.height, 7, 7 + t.values.length, 7 + t.values.length + vals.length] ++ t.values) ++
      (idxs ++ vals) := (List.append_assoc ..).symm

/-- The two reference kernels compute the same indices and values, and the second writes nothing else. -/
theorem references_agree (ht : t.values ≠ []) (hbatch : inp.indices.length = inp.values.length)
    (hbelow : ∀ idx ∈ inp.indices, idx < t.values.length) (trace : Trace) : ∃ out mem trace',
    referenceKernel t inp = .ok out ∧ referenceKernel2 (buildMemImage t inp) trace = .ok (mem, trace') ∧
    (∃ a, mem[5]? = some a ∧ slice mem a inp.indices.length = out.indices) ∧
    (∃ a, mem[6]? = some a ∧ slice mem a inp.values.length = out.values) ∧
    mem.length = (buildMemImage t inp).length ∧
    mem.take (7 + t.values.length) = (buildMemImage t inp).take (7 + t.values.length) := by
  have hpos : 0 < t.values.length := List.length_pos_iff.mpr ht
  have himage := buildMemImage_eq hpos hbatch
  have hstart : LaidOut t inp.rounds inp.values.length inp (buildMemImage t inp, trace) := ⟨himage, hbatch, rfl, hbelow⟩
  obtain ⟨out, ⟨mem, trace'⟩, hout, hrun, rfl, hidx, hval, -⟩ := hstart.kernel hpos
  have hkernel : referenceKernel2 (buildMemImage t inp) trace = .ok (layout t inp.rounds out.indices out.values, trace') := by
    rw [referenceKernel2, himage, readHeader_layout hbatch rfl, bind_ok, ← himage]
    exact hrun
  refine ⟨out, _, trace', hout, hkernel, ⟨7 + t.values.length, rfl, ?_⟩, ⟨7 + t.values.length + out.values.length, rfl, ?_⟩, ?_, ?_⟩
  · rw [hbatch, ← hidx, layout_eq]
    exact slice_append (by simp; omega)
  · rw [← hval, layout_eq, ← List.append_assoc, slice, List.drop_left' (by simp; omega), List.take_length]
  · rw [himage, length_layout, length_layout, hidx, hval, hbatch]
  · rw [himage, layout_eq, layout_eq, hidx, hval, hbatch]
    rw [List.take_left' (by simp; omega), List.take_left' (by simp; omega)]

/-- On a small tree, with items that start at an inner node and at a leaf. -/
theorem references_agree_small : ∃ out mem trace',
    referenceKernel ⟨1, [5, 6, 2 ^ 40]⟩ ⟨[1, 2], [9, 2 ^ 33], 3⟩ = .ok out ∧
    referenceKernel2 (buildMemImage ⟨1, [5, 6, 2 ^ 40]⟩ ⟨[1, 2], [9, 2 ^ 33], 3⟩) .empty = .ok (mem, trace') ∧
    (∃ a, mem[5]? = some a ∧ slice mem a 2 = out.indices) ∧ (∃ a, mem[6]? = some a ∧ slice mem a 2 = out.values) ∧
    mem.length = 14 ∧ mem.take 10 = [3, 3, 2, 1, 7, 10, 12, 5, 6, 2 ^ 40] :=
  @references_agree ⟨1, [5, 6, 2 ^ 40]⟩ ⟨[1, 2], [9, 2 ^ 33], 3⟩ (by decide) rfl (by decide) .empty

end agreement
end Vliw
