import Mathlib.Data.List.Pairwise
import VliwKernel.Problem.Footprint
import VliwKernel.Semantics.Bundles

/-!
# Spilling and eviction

Whatever the pool does with the nodes that it accepts, whole on their engine, spilled or evicted, the bundle computes for
each of them what its own instruction computes.
-/

namespace Vliw

def Instr.words (r : Instr Reg) : List Nat := (r.op.dest?.map fun d => List.range' d.addr r.op.width).getD []

/-- The words of the lanes that landed, or all of an instruction that is not split. -/
def Landing.words (l : Landing) : List Nat :=
  if (classify l.instr.op).kind = .vecElem then (List.range' l.lo (l.hi - l.lo)).filterMap (l.instr.words[·]?) else l.instr.words

def Instr.stored (m : Machine) (r : Instr Reg) : List Nat :=
  match r.op with
  | .vStore addr _ => (m.core.scratch[addr.addr]?.map fun a => List.range' a VLEN).getD []
  | _ => []

def Instr.writes (m : Machine) (r : Instr Reg) : Writes :=
  match r.op.lower with
  | .ok s => m.slotWrites r.engine s
  | .error _ => {}

def Instr.own (m : Machine) (r : Instr Reg) : Except PyErr Machine := do m.step (.ofList [(r.engine, [← r.op.lower])])

section own

variable {m u : Machine} {r : Instr Reg} {s : Slot} {core : Core} {w : Writes}

theorem execSlot_executes {e : Engine} (he : e ≠ .flow) (h : m.execSlot e m.core s = .ok (core, w)) :
    m.Executes (fun _ => True) e s w := by
  intro st _
  refine ⟨st, trivial, ?_⟩
  cases e with
  | alu =>
      cases s with
      | arith op dest a b =>
          obtain ⟨ws, hws, h⟩ := bind_eq_ok.mp h
          cases h
          have hws' : Machine.alu { m.core with state := st } op dest a b = .ok ws := hws
          simp only [Machine.execSlot, hws', bind_ok]
      | _ => cases h
  | valu =>
      obtain ⟨ws, hws, h⟩ := bind_eq_ok.mp h
      cases h
      have hws' : Machine.valu { m.core with state := st } s = .ok ws := hws
      simp only [Machine.execSlot, hws', bind_ok]
  | load =>
      obtain ⟨ws, hws, h⟩ := bind_eq_ok.mp h
      cases h
      have hws' : Machine.load { m.core with state := st } m.mem s = .ok ws := hws
      simp only [Machine.execSlot, hws', bind_ok]
  | store =>
      obtain ⟨ws, hws, h⟩ := bind_eq_ok.mp h
      cases h
      have hws' : Machine.store { m.core with state := st } s = .ok ws := hws
      simp only [Machine.execSlot, hws', bind_ok]
  | flow => exact absurd rfl he
  | debug =>
      cases h
      rfl

/-- The slot of an instruction touches the state of the core at most, besides what it writes. -/
theorem lower_executes (hlow : r.op.lower = .ok s) (h : m.execSlot r.engine m.core s = .ok (core, w)) :
    m.Executes (fun _ => True) r.engine s w := by
  by_cases he : r.engine = .flow
  · obtain ⟨rid, op⟩ := r
    cases op with
    | vSelect dest cond a b =>
        cases hlow
        obtain ⟨⟨core', ws⟩, hws, h⟩ := bind_eq_ok.mp h
        cases h
        obtain ⟨ws', hlanes, hws⟩ := bind_eq_ok.mp hws
        cases hws
        intro st _
        refine ⟨st, trivial, ?_⟩
        have hflow : Machine.flow { m.core with state := st } m.enablePause (.vselect dest.addr cond.addr a.addr b.addr) =
            .ok ({ m.core with state := st }, ws) := bind_eq_ok.mpr ⟨ws, hlanes, rfl⟩
        simp only [Instr.engine, Op.engine, Machine.execSlot, hflow, bind_ok]
    | pause =>
        cases hlow
        cases h
        intro st _
        cases hp : m.enablePause
        · exact ⟨st, trivial, by simp [Instr.engine, Op.engine, Machine.execSlot, Machine.flow, hp]⟩
        · exact ⟨.paused, trivial, by simp [Instr.engine, Op.engine, Machine.execSlot, Machine.flow, hp]⟩
    | _ => simp [Instr.engine, Op.engine] at he
  · exact execSlot_executes he h

theorem lower_words (hlow : r.op.lower = .ok s) (hk : (classify r.op).kind ≠ .debug) (h : m.execSlot r.engine m.core s = .ok (core, w)) :
    w.scratch.map Prod.fst = r.words := by
  have he : r.engine ≠ .debug := by
    revert hk
    cases hop : r.op <;> simp [classify, Instr.engine, Op.engine, Op.isGather, hop]
  rw [Machine.execSlot_writes he h]
  obtain ⟨rid, op⟩ := r
  cases op with
  | gather dest addr => cases hlow
  | _ =>
      cases hlow
      rfl

theorem lower_stored (hlow : r.op.lower = .ok s) (h : m.execSlot r.engine m.core s = .ok (core, w)) :
    w.mem.map Prod.fst = r.stored m := by
  obtain ⟨rid, op⟩ := r
  cases op with
  | gather dest addr => cases hlow
  | debugVCompare loc keys =>
      cases hlow
      cases h
      rfl
  | vStore addr src =>
      cases hlow
      obtain ⟨ws, hws, h⟩ := bind_eq_ok.mp h
      cases h
      obtain ⟨base, hbase, hws⟩ := bind_eq_ok.mp hws
      have hget : m.core.scratch[addr.addr]? = some base := by
        unfold at? at hbase
        split at hbase
        · cases hbase
          assumption
        · cases hbase
      have hlane : ∀ {i q}, (do let x ← at? m.core.scratch (src.addr + i); .ok (base + i, x) : Except PyErr (Nat × Nat)) = .ok q →
          q.1 = base + i := by
        intro i q hq
        obtain ⟨x, -, hq⟩ := bind_eq_ok.mp hq
        cases hq
        rfl
      have hfst := Machine.lanes_fst hlane hws
      simp only [Instr.stored, hget, Option.map_some, Option.getD_some]
      exact hfst
  | _ =>
      cases hlow
      obtain ⟨ws, hws, h⟩ := bind_eq_ok.mp h
      cases h
      rfl

/-- The instruction has the slot `s`, which alone leads from `m` to `u` with the writes `w`. -/
structure Instr.Ran (m : Machine) (r : Instr Reg) (u : Machine) (s : Slot) (w : Writes) : Prop where
  lower : r.op.lower = .ok s
  exec : m.Executes (fun _ => True) r.engine s w
  words : w.scratch.map Prod.fst = r.words
  stored : w.mem.map Prod.fst = r.stored m
  scratch : Machine.applyWrites w.scratch m.core.scratch = .ok u.core.scratch
  mem : Machine.applyWrites w.mem m.mem = .ok u.mem

theorem own_eq_ok (hk : (classify r.op).kind ≠ .debug) (h : r.own m = .ok u) : ∃ s w, r.Ran m u s w := by
  have he : r.engine ≠ .debug := by
    revert hk
    cases hop : r.op <;> simp [classify, Instr.engine, Op.engine, Op.isGather, hop]
  obtain ⟨s, hlow, h⟩ := bind_eq_ok.mp h
  obtain ⟨⟨core, w⟩, hexec, h⟩ := bind_eq_ok.mp h
  obtain ⟨scratch, hscratch, h⟩ := bind_eq_ok.mp h
  obtain ⟨mem, hmem, h⟩ := bind_eq_ok.mp h
  cases h
  have hsingle : Machine.execEngine m (m.core, {}) (r.engine, [s]) = .ok (core, w) := by
    rw [Dict.items_ofList (by simp), List.foldlM_cons] at hexec
    obtain ⟨q, hq, hexec⟩ := bind_eq_ok.mp hexec
    cases hexec
    exact hq
  rw [Machine.execEngine, if_neg he] at hsingle
  split at hsingle
  · obtain ⟨⟨core', w'⟩, hslot, hsingle⟩ := bind_eq_ok.mp hsingle
    cases hsingle
    have hexec' := lower_executes hlow hslot
    obtain ⟨st, -, hcore⟩ := hexec' m.core.state trivial
    cases hslot.symm.trans hcore
    exact ⟨s, w', hlow, hexec', lower_words hlow hk hslot, lower_stored hlow hslot, hscratch, hmem⟩
  · cases hsingle

section ran

variable (h : r.Ran m u s w)
include h

theorem Instr.Ran.range : (∀ q ∈ w.scratch, q.1 < m.core.scratch.length) ∧ ∀ q ∈ w.mem, q.1 < m.mem.length :=
  ⟨(Machine.applyWrites_length h.scratch).2, (Machine.applyWrites_length h.mem).2⟩

/-- A lane of a spilled or evicted node does what the whole instruction does for it. -/
theorem Instr.Ran.lane (hk : (classify r.op).kind = .vecElem) (hword : ∀ x ∈ m.core.scratch, x < WORD)
    (hzero : m.core.scratch[0]? = some 0) {j : Nat} (hj : j < VLEN) :
    ∃ q, w.scratch[j]? = some q ∧ m.Executes (fun _ => True) .alu (laneSlot r j).slot ⟨[q], []⟩ := by
  have hjr : (List.range VLEN)[j]? = some j := List.getElem?_range hj
  obtain ⟨st, -, hexec⟩ := h.exec m.core.state trivial
  have hlow := h.lower
  obtain ⟨rid, op⟩ := r
  cases op with
  | vecElem op dest a b =>
      cases hlow
      obtain ⟨ws, hws, hexec⟩ := bind_eq_ok.mp hexec
      cases hexec
      obtain ⟨q, hq, hlane⟩ := (mapM_eq_ok hws).2 hjr
      obtain ⟨x, hx, hlane⟩ := bind_eq_ok.mp hlane
      obtain ⟨y, hy, hlane⟩ := bind_eq_ok.mp hlane
      obtain ⟨v, hv, hlane⟩ := bind_eq_ok.mp hlane
      cases hlane
      have halu : Machine.alu m.core op (dest.addr + j) (a.addr + j) (b.addr + j) = .ok [(dest.addr + j, v)] := by
        simp only [Machine.alu, hx, hy, hv, bind_ok]
      have hslot : m.execSlot .alu m.core (.arith op (dest.addr + j) (a.addr + j) (b.addr + j)) =
          .ok (m.core, ⟨[(dest.addr + j, v)], []⟩) := by simp only [Machine.execSlot, halu, bind_ok]
      exact ⟨(dest.addr + j, v), hq, execSlot_executes (by simp) hslot⟩
  | vBroadcast dest src =>
      cases hlow
      obtain ⟨ws, hws, hexec⟩ := bind_eq_ok.mp hexec
      cases hexec
      obtain ⟨q, hq, hlane⟩ := (mapM_eq_ok hws).2 hjr
      obtain ⟨x, hx, hlane⟩ := bind_eq_ok.mp hlane
      cases hlane
      have hx' : x < WORD := by
        unfold at? at hx
        split at hx
        · next hget =>
            cases hx
            exact hword _ (List.mem_of_getElem? hget)
        · cases hx
      have halu : Machine.alu m.core .add (dest.addr + j) src.addr 0 = .ok [(dest.addr + j, x)] := by
        simp only [Machine.alu, hx, at?_ok hzero, aluOp, bind_ok, Nat.add_zero, Nat.mod_eq_of_lt hx']
      have hslot : m.execSlot .alu m.core (.arith .add (dest.addr + j) src.addr 0) = .ok (m.core, ⟨[(dest.addr + j, x)], []⟩) := by
        simp only [Machine.execSlot, halu, bind_ok]
      exact ⟨(dest.addr + j, x), hq, execSlot_executes (by simp) hslot⟩
  | _ => simp [classify, Op.engine, Op.isGather] at hk

theorem Instr.Ran.writes : r.writes m = w := by
  rw [Instr.writes, h.lower]
  exact h.exec.slotWrites trivial

theorem Instr.Ran.unique {q q' : Nat × Nat} (hq : q ∈ w.scratch) (hq' : q' ∈ w.scratch) (heq : q.1 = q'.1) : q = q' := by
  have hnodup : (w.scratch.map Prod.fst).Nodup := by
    rw [h.words, Instr.words]
    cases r.op.dest? with
    | none => exact List.nodup_nil
    | some d => exact List.nodup_range'
  exact List.inj_on_of_nodup_map hnodup hq hq' heq

theorem Instr.Ran.unique_mem {q q' : Nat × Nat} (hq : q ∈ w.mem) (hq' : q' ∈ w.mem) (heq : q.1 = q'.1) : q = q' := by
  have hnodup : (w.mem.map Prod.fst).Nodup := by
    rw [h.stored, Instr.stored]
    split
    · next addr src _ =>
        cases m.core.scratch[addr.addr]? with
        | none => exact List.nodup_nil
        | some a => exact List.nodup_range'
    · exact List.nodup_nil
  exact List.inj_on_of_nodup_map hnodup hq hq' heq

end ran
end own

section realised

variable {b : Dict Engine (List Entry)} {i : Nat} {l : Landing} {m u : Machine} {s : Slot} {w : Writes}

theorem words_vecElem {r : Instr Reg} (hk : (classify r.op).kind = .vecElem) : r.words.length = VLEN ∧ r.stored m = [] := by
  obtain ⟨rid, op⟩ := r
  cases op <;> simp [classify, Op.engine, Op.isGather, Instr.words, Instr.stored, Op.dest?, Op.width] at hk ⊢

theorem Landing.mem_words {a : Nat} (h : a ∈ l.words) : a ∈ l.instr.words := by
  unfold Landing.words at h
  split at h
  · obtain ⟨j, -, hj⟩ := List.mem_filterMap.mp h
    exact List.mem_of_getElem? hj
  · exact h

/-- The entries of a landed node together write what its own instruction writes in the lanes that landed. -/
theorem FuncUnitPool.Realised.executes (hr : Realised b i l) (hran : l.instr.Ran m u s w) (hk : (classify l.instr.op).kind ≠ .debug)
    (hk' : (classify l.instr.op).kind ≠ .gather) (hhi : l.hi ≤ (classify l.instr.op).lanesTotal)
    (hword : ∀ x ∈ m.core.scratch, x < WORD) (hzero : m.core.scratch[0]? = some 0) :
    (∀ {e x}, x ∈ ofNode b e i → e ≠ .debug ∧ ∃ w', m.Executes (fun _ => True) e x.lowered.slot w' ∧
        (∀ q ∈ w'.scratch, q ∈ w.scratch ∧ q.1 ∈ l.words) ∧ ∀ q ∈ w'.mem, q ∈ w.mem) ∧
      (∀ q ∈ w.scratch, q.1 ∈ l.words → ∃ e x, x ∈ ofNode b e i ∧ q ∈ (m.slotWrites e x.lowered.slot).scratch) ∧
      ∀ q ∈ w.mem, ∃ e x, x ∈ ofNode b e i ∧ q ∈ (m.slotWrites e x.lowered.slot).mem := by
  cases hr with
  | whole hlo hhi' _ hw =>
      have he : l.instr.engine ≠ .debug := by
        revert hk
        cases hop : l.instr.op <;> simp [classify, Instr.engine, Op.engine, Op.isGather, hop]
      have hlow : (Entry.whole i l.instr).lowered.slot = s := by rw [Entry.lowered_whole hran.lower]
      have hmem : Entry.whole i l.instr ∈ ofNode b l.instr.engine i := by simp [hw]
      have hwrites : m.slotWrites l.instr.engine (Entry.whole i l.instr).lowered.slot = w := by
        rw [hlow]
        exact hran.exec.slotWrites trivial
      refine ⟨fun {e x} hx => ?_, fun q hq _ => ⟨_, _, hmem, hwrites ▸ hq⟩, fun q hq => ⟨_, _, hmem, hwrites ▸ hq⟩⟩
      rw [hw] at hx
      split at hx
      · next hee =>
          obtain rfl := List.mem_singleton.mp hx
          refine ⟨hee ▸ he, w, hlow ▸ hee ▸ hran.exec, fun q hq => ⟨hq, ?_⟩, fun q hq => hq⟩
          have hin : q.1 ∈ l.instr.words := hran.words ▸ List.mem_map_of_mem hq
          unfold Landing.words
          split
          · next hv =>
              obtain ⟨j, hj⟩ := List.getElem?_of_mem hin
              have hlt := (List.getElem?_eq_some_iff.mp hj).1
              rw [(words_vecElem (m := m) hv).1] at hlt
              refine List.mem_filterMap.mpr ⟨j, ?_, hj⟩
              rw [hlo, hhi', lanesTotal_vecElem hv, List.mem_range'_1]
              omega
          · exact hin
      · cases hx
  | lanes hv hl =>
      have hv := hv.resolve_right hk'
      have hlane : laneEngine l.instr = .alu := (engine_vecElem hv).2.1
      rw [lanesTotal_vecElem hv] at hhi
      rw [hlane] at hl
      have hwords : l.words = (List.range' l.lo (l.hi - l.lo)).filterMap (l.instr.words[·]?) := if_pos hv
      refine ⟨fun {e x} hx => ?_, fun q hq hin => ?_, fun q hq => ?_⟩
      · rw [hl] at hx
        split at hx
        · next hee =>
            obtain ⟨j, hj, rfl⟩ := List.mem_map.mp hx
            have hj' := List.mem_range'_1.mp hj
            obtain ⟨q, hq, hexec⟩ := hran.lane hv hword hzero (j := j) (by omega)
            refine ⟨by simp [hee], ⟨[q], []⟩, hee ▸ hexec, fun q' hq' => ?_, fun q' hq' => by cases hq'⟩
            obtain rfl := List.mem_singleton.mp hq'
            refine ⟨List.mem_of_getElem? hq, ?_⟩
            rw [hwords]
            refine List.mem_filterMap.mpr ⟨j, hj, ?_⟩
            rw [← hran.words, List.getElem?_map, hq, Option.map_some]
        · cases hx
      · rw [hwords] at hin
        obtain ⟨j, hj, hjw⟩ := List.mem_filterMap.mp hin
        have hj' := List.mem_range'_1.mp hj
        obtain ⟨q', hq', hexec⟩ := hran.lane hv hword hzero (j := j) (by omega)
        rw [← hran.words, List.getElem?_map, hq', Option.map_some, Option.some.injEq] at hjw
        obtain rfl := hran.unique (List.mem_of_getElem? hq') hq hjw
        refine ⟨.alu, .lane i j (laneSlot l.instr j), ?_, ?_⟩
        · rw [hl, if_pos rfl]
          exact List.mem_map.mpr ⟨j, hj, rfl⟩
        · have hwrites : m.slotWrites .alu (Entry.lane i j (laneSlot l.instr j)).lowered.slot = ⟨[q'], []⟩ := hexec.slotWrites trivial
          rw [hwrites]
          exact List.mem_singleton_self q'
      · have hnil : w.mem.map Prod.fst = [] := hran.stored.trans (words_vecElem hv).2
        rw [List.map_eq_nil_iff.mp hnil] at hq
        cases hq

end realised

/-- One call of `place` after the other, in emitting mode, with what each returned. -/
def FuncUnitPool.placeAll : List (Nat × Instr Reg) → FuncUnitPool → Placement.Log →
    Except PyErr (List (Option Bool) × FuncUnitPool × Placement.Log)
  | [], p, pl => .ok ([], p, pl)
  | (i, r) :: calls, p, pl => do
      let (res, p, pl) ← p.place pl i (classify r.op) (some r)
      let (rs, p, pl) ← placeAll calls p pl
      .ok (res :: rs, p, pl)

/-- What a call did to a node with `lo` landed lanes: nothing, or it landed some lanes, or all that were left. -/
inductive Called (i : Nat) (r : Instr Reg) (lo hi : Nat) (M : Ledger) : Option Bool → Prop
  | refused : hi = lo → M i = none → Called i r lo hi M none
  | landed {b} : lo < hi → hi ≤ (classify r.op).lanesTotal → (b = true ↔ hi = (classify r.op).lanesTotal) → M i = some ⟨r, lo, hi⟩ →
      Called i r lo hi M (some b)

/-- A node that `place` is called on: neither debug nor gather, and not complete. -/
structure Placeable (pl : Placement.Log) (c : Nat × Instr Reg) : Prop where
  notDebug : (classify c.2.op).kind ≠ .debug
  notGather : (classify c.2.op).kind ≠ .gather
  incomplete : pl.val.lanesDone c.1 < (classify c.2.op).lanesTotal

section calls

variable {M : Ledger} {p : FuncUnitPool} {pl : Placement.Log} {calls : List (Nat × Instr Reg)} {i : Nat} {r : Instr Reg}

/-- A call that returns `None` leaves everything as it was, and any other lands lanes of its own node only. -/
theorem FuncUnitPool.Inv.place (h : Inv M p) (hM : M i = none) (hc : Placeable pl (i, r)) :
    ∃ res p' pl' M', p.place pl i (classify r.op) (some r) = .ok (res, p', pl') ∧ Inv M' p' ∧
      Called i r (pl.val.lanesDone i) (pl'.val.lanesDone i) M' res ∧ (res = none → p' = p ∧ pl' = pl) ∧
      ∀ j, j ≠ i → M' j = M j ∧ pl'.val.lanesDone j = pl.val.lanesDone j := by
  obtain ⟨res, p', pl', hp, hinv⟩ := place_emit hM h hc.notDebug hc.notGather hc.incomplete
  obtain ⟨hplaced, hsame⟩ := place_placed hc.notDebug hc.incomplete (lanesTotal_atomic hc.notDebug hc.notGather) hp
  cases hplaced with
  | refused => exact ⟨none, p', pl, M, hp, (hsame rfl) ▸ h, .refused rfl hM, fun _ => ⟨hsame rfl, rfl⟩, fun _ _ => ⟨rfl, rfl⟩⟩
  | @landed k b _ hk hle hb hl _ =>
      have hi : pl'.val.lanesDone i = pl.val.lanesDone i + k := by rw [hl, Function.update_self]
      refine ⟨some b, p', pl', _, hp, hinv (by simp), .landed (by omega) (by rw [hi]; exact hle) (by rw [hi]; exact hb) ?_, by simp,
        fun j hj => ⟨Function.update_of_ne hj _ _, ?_⟩⟩
      · rw [Function.update_self]
      · rw [hl, Function.update_of_ne hj]

/-- A sequence of calls on different nodes, each of which keeps the pool's bundle as the ledger says. -/
theorem placeAll_ok (h : FuncUnitPool.Inv M p) (hM : ∀ c ∈ calls, M c.1 = none) (hnd : (calls.map Prod.fst).Nodup)
    (hc : ∀ c ∈ calls, Placeable pl c) : ∃ rs p' pl' M', FuncUnitPool.placeAll calls p pl = .ok (rs, p', pl') ∧
      FuncUnitPool.Inv M' p' ∧ rs.length = calls.length ∧
      (∀ c ∈ calls.zip rs, Called c.1.1 c.1.2 (pl.val.lanesDone c.1.1) (pl'.val.lanesDone c.1.1) M' c.2) ∧
      ∀ j, j ∉ calls.map Prod.fst → M' j = M j ∧ pl'.val.lanesDone j = pl.val.lanesDone j := by
  induction calls generalizing M p pl with
  | nil => exact ⟨[], p, pl, M, rfl, h, rfl, by simp, fun _ _ => ⟨rfl, rfl⟩⟩
  | cons c calls ih =>
      obtain ⟨i, r⟩ := c
      rw [List.map_cons, List.nodup_cons] at hnd
      obtain ⟨res, p₁, pl₁, M₁, hp, hinv, hcalled, -, hframe⟩ := h.place (hM (i, r) (by simp)) (hc (i, r) (by simp))
      have hne : ∀ c ∈ calls, c.1 ≠ i := by
        rintro c hcm rfl
        exact hnd.1 (List.mem_map.mpr ⟨c, hcm, rfl⟩)
      obtain ⟨rs, p', pl', M', hrest, hinv', hlen, hcalls, hframe'⟩ := @ih M₁ p₁ pl₁ hinv
        (fun c hcm => (hframe _ (hne c hcm)).1.trans (hM c (by simp [hcm]))) hnd.2 fun c hcm => by
          have hpc := hc c (by simp [hcm])
          exact ⟨hpc.notDebug, hpc.notGather, (hframe _ (hne c hcm)).2 ▸ hpc.incomplete⟩
      obtain ⟨hMi, hli⟩ := hframe' i hnd.1
      refine ⟨res :: rs, p', pl', M', ?_, hinv', by simp [hlen], ?_, fun j hj => ?_⟩
      · simp only [FuncUnitPool.placeAll, hp, hrest, bind_ok]
      · rw [List.zip_cons_cons, List.forall_mem_cons]
        constructor
        · cases hcalled with
          | refused hlo hnone => exact .refused (hli.trans hlo) (hMi.trans hnone)
          | landed hlt hle hb hsome =>
              dsimp only
              rw [hli]
              exact .landed hlt hle hb (hMi.trans hsome)
        · intro c hcz
          have hcm : c.1 ∈ calls := (List.of_mem_zip hcz).1
          rw [← (hframe _ (hne _ hcm)).2]
          exact hcalls c hcz
      · rw [List.map_cons, List.mem_cons, not_or] at hj
        obtain ⟨h₁, h₂⟩ := hframe' j hj.2
        obtain ⟨h₃, h₄⟩ := hframe j hj.1
        exact ⟨h₁.trans h₃, h₂.trans h₄⟩

/-- The step from `m` to `m'` does for each node that landed lanes what its own instruction does in them, and nothing else. -/
structure StepsAs (m m' : Machine) (pl pl' : Placement.Log) (calls : List ((Nat × Instr Reg) × Option Bool)) : Prop where
  scratch : ∀ {i r res u a}, ((i, r), res) ∈ calls → res ≠ none → r.own m = .ok u →
    a ∈ Landing.words ⟨r, pl.val.lanesDone i, pl'.val.lanesDone i⟩ → m'.core.scratch[a]? = u.core.scratch[a]?
  mem : ∀ {i r res u a}, ((i, r), res) ∈ calls → res ≠ none → r.own m = .ok u → a ∈ r.stored m → m'.mem[a]? = u.mem[a]?
  scratchElse : ∀ {a}, (∀ {i r res}, ((i, r), res) ∈ calls → res ≠ none →
    a ∉ Landing.words ⟨r, pl.val.lanesDone i, pl'.val.lanesDone i⟩) → m'.core.scratch[a]? = m.core.scratch[a]?
  memElse : ∀ {a}, (∀ {i r res}, ((i, r), res) ∈ calls → res ≠ none → a ∉ r.stored m) → m'.mem[a]? = m.mem[a]?

theorem disjoint_of_pairwise {α : Type} {f : α → List Nat} {l : List α} {x y : α} (h : l.Pairwise fun x y => (f x).Disjoint (f y))
    (hx : x ∈ l) (hy : y ∈ l) (hne : x ≠ y) : (f x).Disjoint (f y) :=
  have : Std.Symm fun x y => (f x).Disjoint (f y) := ⟨fun _ _ h _ ha hb => h hb ha⟩
  h.forall hx hy hne

section together

variable {m : Machine} {scratch mem : List Nat} {rs : List (Option Bool)} {pl' : Placement.Log} {zs : List ((Nat × Instr Reg) × Option Bool)}
  {ws wm : List (Nat × Nat)} {res : Option Bool} {lo hi : Nat}

theorem Placeable.ran {c : Nat × Instr Reg} (hc : Placeable pl c) (hown : ∃ u, c.2.own m = .ok u) : ∃ u s, c.2.Ran m u s (c.2.writes m) := by
  obtain ⟨u, hu⟩ := hown
  obtain ⟨s, w, hran⟩ := own_eq_ok hc.notDebug hu
  exact ⟨u, s, hran.writes.symm ▸ hran⟩

theorem Called.of_ne_none (h : Called i r lo hi M res) (hne : res ≠ none) : M i = some ⟨r, lo, hi⟩ ∧ hi ≤ (classify r.op).lanesTotal := by
  cases h with
  | refused => exact absurd rfl hne
  | landed _ hle _ hsome => exact ⟨hsome, hle⟩

/-- What the ledger holds, a call has landed. -/
theorem called_of_ledger (hlen : rs.length = calls.length)
    (hcalls : ∀ c ∈ calls.zip rs, Called c.1.1 c.1.2 (pl.val.lanesDone c.1.1) (pl'.val.lanesDone c.1.1) M c.2)
    (hM : ∀ j, j ∉ calls.map Prod.fst → M j = none) {l : Landing} (hi : M i = some l) : ∃ z ∈ calls.zip rs, z.2 ≠ none ∧ z.1.1 = i ∧
      l = ⟨z.1.2, pl.val.lanesDone z.1.1, pl'.val.lanesDone z.1.1⟩ := by
  have hfst : (calls.zip rs).map Prod.fst = calls := List.map_fst_zip (by omega)
  by_cases hid : i ∈ calls.map Prod.fst
  · rw [← hfst, List.map_map] at hid
    obtain ⟨⟨⟨i, r⟩, res⟩, hz, rfl⟩ := List.mem_map.mp hid
    refine ⟨_, hz, ?_⟩
    cases hcalls _ hz with
    | refused _ hnone => exact absurd (hi.symm.trans hnone) (by simp)
    | landed _ _ _ hsome => exact ⟨by simp, rfl, Option.some.inj (hi.symm.trans hsome)⟩
  · exact absurd (hi.symm.trans (hM i hid)) (by simp)

/-- Together the writes are those of the nodes, in the lanes that they landed. -/
structure Together (m : Machine) (pl pl' : Placement.Log) (zs : List ((Nat × Instr Reg) × Option Bool)) (ws wm : List (Nat × Nat)) : Prop where
  scratch : ∀ q, q ∈ ws ↔ ∃ z ∈ zs, z.2 ≠ none ∧ q ∈ (z.1.2.writes m).scratch ∧
    q.1 ∈ Landing.words ⟨z.1.2, pl.val.lanesDone z.1.1, pl'.val.lanesDone z.1.1⟩
  mem : ∀ q, q ∈ wm ↔ ∃ z ∈ zs, z.2 ≠ none ∧ q ∈ (z.1.2.writes m).mem

structure WritesApart (m : Machine) (zs : List ((Nat × Instr Reg) × Option Bool)) : Prop where
  scratch : ∀ {z z' q q'}, z ∈ zs → z' ∈ zs → q ∈ (z.1.2.writes m).scratch → q' ∈ (z'.1.2.writes m).scratch → q'.1 = q.1 → q' = q
  mem : ∀ {z z' q q'}, z ∈ zs → z' ∈ zs → q ∈ (z.1.2.writes m).mem → q' ∈ (z'.1.2.writes m).mem → q'.1 = q.1 → q' = q

theorem writesApart (hran : ∀ {z}, z ∈ calls.zip rs → ∃ u s, z.1.2.Ran m u s (z.1.2.writes m))
    (hdis : calls.Pairwise fun c c' => c.2.words.Disjoint c'.2.words) (hdism : calls.Pairwise fun c c' => (c.2.stored m).Disjoint (c'.2.stored m)) :
    WritesApart m (calls.zip rs) := by
  have hmem : ∀ {z}, z ∈ calls.zip rs → z.1 ∈ calls := fun hz => (List.of_mem_zip hz).1
  constructor
  · intro z z' q q' hz hz' hq hq' heq
    obtain ⟨u, s, hr⟩ := hran hz
    obtain ⟨u', s', hr'⟩ := hran hz'
    by_cases hzz : z'.1 = z.1
    · rw [hzz] at hq'
      exact hr.unique hq' hq heq
    · have hd := disjoint_of_pairwise (f := fun c => c.2.words) hdis (hmem hz') (hmem hz) hzz
      exact absurd (hr.words ▸ List.mem_map_of_mem hq) (hd (heq ▸ hr'.words ▸ List.mem_map_of_mem hq'))
  · intro z z' q q' hz hz' hq hq' heq
    obtain ⟨u, s, hr⟩ := hran hz
    obtain ⟨u', s', hr'⟩ := hran hz'
    by_cases hzz : z'.1 = z.1
    · rw [hzz] at hq'
      exact hr.unique_mem hq' hq heq
    · have hd := disjoint_of_pairwise (f := fun c => c.2.stored m) hdism (hmem hz') (hmem hz) hzz
      exact absurd (hr.stored ▸ List.mem_map_of_mem hq) (hd (heq ▸ hr'.stored ▸ List.mem_map_of_mem hq'))

theorem Together.stepsAs {m' : Machine} (h : Together m pl pl' zs ws wm) (hap : WritesApart m zs) (hc : ∀ z ∈ zs, Placeable pl z.1)
    (hran : ∀ {z}, z ∈ zs → ∃ u s, z.1.2.Ran m u s (z.1.2.writes m)) (hws : Machine.applyWrites ws m.core.scratch = .ok m'.core.scratch)
    (hwm : Machine.applyWrites wm m.mem = .ok m'.mem) : StepsAs m m' pl pl' zs where
  scratch {i r res u a} hz hne hu ha := by
    obtain ⟨s, w, hr⟩ := own_eq_ok (hc _ hz).notDebug hu
    rw [← hr.writes] at hr
    obtain ⟨q, hq, rfl⟩ := List.mem_map.mp (hr.words.symm ▸ Landing.mem_words ha)
    have hq' := (h.scratch q).mpr ⟨_, hz, hne, hq, ha⟩
    rw [Machine.applyWrites_of_mem hws hq' fun q' hq' heq => ?_, Machine.applyWrites_of_mem hr.scratch hq fun q' hq' heq => ?_]
    · rw [hr.unique hq' hq heq]
    · obtain ⟨z', hz', -, hq', -⟩ := (h.scratch q').mp hq'
      rw [hap.scratch hz hz' hq hq' heq]
  mem {i r res u a} hz hne hu ha := by
    obtain ⟨s, w, hr⟩ := own_eq_ok (hc _ hz).notDebug hu
    rw [← hr.writes] at hr
    obtain ⟨q, hq, rfl⟩ := List.mem_map.mp (hr.stored.symm ▸ ha)
    have hq' := (h.mem q).mpr ⟨_, hz, hne, hq⟩
    rw [Machine.applyWrites_of_mem hwm hq' fun q' hq' heq => ?_, Machine.applyWrites_of_mem hr.mem hq fun q' hq' heq => ?_]
    · rw [hr.unique_mem hq' hq heq]
    · obtain ⟨z', hz', -, hq'⟩ := (h.mem q').mp hq'
      rw [hap.mem hz hz' hq hq' heq]
  scratchElse {a} ha := by
    refine Machine.applyWrites_of_ne hws fun q hq heq => ?_
    obtain ⟨⟨⟨i, r⟩, res⟩, hz, hne, -, hqw⟩ := (h.scratch q).mp hq
    exact ha hz hne (heq ▸ hqw)
  memElse {a} ha := by
    refine Machine.applyWrites_of_ne hwm fun q hq heq => ?_
    obtain ⟨⟨⟨i, r⟩, res⟩, hz, hne, hqm⟩ := (h.mem q).mp hq
    obtain ⟨u, s, hr⟩ := hran hz
    exact ha hz hne (heq ▸ hr.stored ▸ List.mem_map_of_mem hqm)

theorem stepsAs (h : FuncUnitPool.Inv M p) (hlen : rs.length = calls.length) (hc : ∀ c ∈ calls, Placeable pl c)
    (hcalls : ∀ c ∈ calls.zip rs, Called c.1.1 c.1.2 (pl.val.lanesDone c.1.1) (pl'.val.lanesDone c.1.1) M c.2)
    (hM : ∀ j, j ∉ calls.map Prod.fst → M j = none) (hdis : calls.Pairwise fun c c' => c.2.words.Disjoint c'.2.words)
    (hword : ∀ x ∈ m.core.scratch, x < WORD) (hzero : m.core.scratch[0]? = some 0) (hown : ∀ c ∈ calls, ∃ u, c.2.own m = .ok u)
    (hdism : calls.Pairwise fun c c' => (c.2.stored m).Disjoint (c'.2.stored m)) :
    ∃ m', m.step (emitted p.bundle).untag = .ok m' ∧ StepsAs m m' pl pl' (calls.zip rs) := by
  have hcz : ∀ z ∈ calls.zip rs, Placeable pl z.1 := fun z hz => hc _ (List.of_mem_zip hz).1
  have hran : ∀ {z}, z ∈ calls.zip rs → ∃ u s, z.1.2.Ran m u s (z.1.2.writes m) := fun {z} hz =>
    (hcz z hz).ran (hown _ (List.of_mem_zip hz).1)
  have hnode : ∀ {z}, z ∈ calls.zip rs → z.2 ≠ none → _ := fun {z} hz hne =>
    have ⟨hM, hle⟩ := (hcalls z hz).of_ne_none hne
    have ⟨u, s, hr⟩ := hran hz
    (h.realised hM).executes hr (hcz z hz).notDebug (hcz z hz).notGather hle hword hzero
  -- an entry of the bundle belongs to a node that has landed
  have hentry : ∀ {e x}, x ∈ FuncUnitPool.slots p.bundle e → ∃ z ∈ calls.zip rs, z.2 ≠ none ∧ x ∈ FuncUnitPool.ofNode p.bundle e z.1.1 := by
    intro e x hx
    obtain ⟨l, hl, -⟩ := h.entry hx
    obtain ⟨z, hz, hne, hi, -⟩ := called_of_ledger hlen hcalls hM hl
    exact ⟨z, hz, hne, FuncUnitPool.mem_ofNode.mpr ⟨hx, hi.symm⟩⟩
  have hexec : ∀ {e x}, x ∈ FuncUnitPool.slots p.bundle e → e ≠ .debug ∧ ∃ w, m.Executes (fun _ => True) e x.lowered.slot w ∧
      (∀ q ∈ w.scratch, q.1 < m.core.scratch.length) ∧ ∀ q ∈ w.mem, q.1 < m.mem.length := by
    intro e x hx
    obtain ⟨z, hz, hne, hxz⟩ := hentry hx
    obtain ⟨u, s, hr⟩ := hran hz
    obtain ⟨he, w, hw, hin, hinm⟩ := (hnode hz hne).1 hxz
    exact ⟨he, w, hw, fun q hq => hr.range.1 q (hin q hq).1, fun q hq => hr.range.2 q (hinm q hq)⟩
  obtain ⟨ws, wm, st, scratch, mem, -, hstep, hws, hwm, hin, hinm⟩ := h.step (R := fun _ => True) trivial hexec
  have htogether : Together m pl pl' (calls.zip rs) ws wm := by
    refine ⟨fun q => ?_, fun q => ?_⟩
    · rw [hin]
      constructor
      · rintro ⟨e, x, hx, hq⟩
        obtain ⟨z, hz, hne, hxz⟩ := hentry hx
        obtain ⟨-, w, hw, hsub, -⟩ := (hnode hz hne).1 hxz
        rw [hw.slotWrites trivial] at hq
        exact ⟨z, hz, hne, hsub q hq⟩
      · rintro ⟨z, hz, hne, hq, hqw⟩
        obtain ⟨e, x, hx, hq⟩ := (hnode hz hne).2.1 q hq hqw
        exact ⟨e, x, (FuncUnitPool.mem_ofNode.mp hx).1, hq⟩
    · rw [hinm]
      constructor
      · rintro ⟨e, x, hx, hq⟩
        obtain ⟨z, hz, hne, hxz⟩ := hentry hx
        obtain ⟨-, w, hw, -, hsub⟩ := (hnode hz hne).1 hxz
        rw [hw.slotWrites trivial] at hq
        exact ⟨z, hz, hne, hsub q hq⟩
      · rintro ⟨z, hz, hne, hq⟩
        obtain ⟨e, x, hx, hq⟩ := (hnode hz hne).2.2 q hq
        exact ⟨e, x, (FuncUnitPool.mem_ofNode.mp hx).1, hq⟩
  exact ⟨_, hstep, htogether.stepsAs (writesApart hran hdis hdism) hcz hran hws hwm⟩

end together

/-- Spilling and eviction are changes of slots only: the pool keeps its books, and the bundle does what the nodes do. -/
theorem placements_refine {pl : Placement.Log} (hnd : (calls.map Prod.fst).Nodup) (hc : ∀ c ∈ calls, Placeable pl c)
    (hdis : calls.Pairwise fun c c' => c.2.words.Disjoint c'.2.words) :
    ∃ rs p pl', FuncUnitPool.placeAll calls .fresh pl = .ok (rs, p, pl') ∧ rs.length = calls.length ∧
      (∀ {e}, e ≠ .debug → p.free e + (FuncUnitPool.slots p.bundle e).length = SLOT_LIMITS e) ∧
      (∀ c ∈ calls.zip rs, (c.2 = some true ↔ pl'.val.lanesDone c.1.1 = (classify c.1.2.op).lanesTotal) ∧
        (c.2 = none ↔ pl'.val.lanesDone c.1.1 = pl.val.lanesDone c.1.1)) ∧
      (∀ {i r p' pl''}, i ∉ calls.map Prod.fst → Placeable pl (i, r) → p.place pl' i (classify r.op) (some r) = .ok (none, p', pl'') →
        p' = p ∧ pl'' = pl') ∧
      ∀ m : Machine, (∀ x ∈ m.core.scratch, x < WORD) → m.core.scratch[0]? = some 0 → (∀ c ∈ calls, ∃ u, c.2.own m = .ok u) →
        (calls.Pairwise fun c c' => (c.2.stored m).Disjoint (c'.2.stored m)) →
        ∃ b m', emitBundle p.bundle = .ok b ∧ m.step b.untag = .ok m' ∧ StepsAs m m' pl pl' (calls.zip rs) := by
  obtain ⟨rs, p, pl', M, hall, hinv, hlen, hcalls, hframe⟩ := placeAll_ok .fresh (fun _ _ => rfl) hnd hc
  refine ⟨rs, p, pl', hall, hlen, hinv.free, fun c hcz => ?_, fun {i r p' pl''} hi hci hp => ?_, fun m hword hzero hown hdism => ?_⟩
  · have hlt := (hc _ (List.of_mem_zip hcz).1).incomplete
    obtain ⟨⟨i, r⟩, res⟩ := c
    cases hcalls _ hcz with
    | refused hlo _ =>
        dsimp only at hlo hlt ⊢
        rw [hlo]
        simp
        omega
    | landed hlt' _ hb _ =>
        dsimp only at hlt' hb ⊢
        simp only [Option.some.injEq, hb, true_and, reduceCtorEq, false_iff]
        omega
  · obtain ⟨res, p₁, pl₁, M', hp', -, -, hsame, -⟩ := hinv.place (hframe i hi).1
      ⟨hci.notDebug, hci.notGather, (hframe i hi).2.symm ▸ hci.incomplete⟩
    cases hp.symm.trans hp'
    exact hsame rfl
  · obtain ⟨m', hstep, hsteps⟩ := stepsAs hinv hlen hc hcalls (fun j hj => (hframe j hj).1) hdis hword hzero hown hdism
    exact ⟨emitted p.bundle, m', hinv.emits, hstep, hsteps⟩

end calls

/-- Six additions, a multiplication that evicts the last of them, and a broadcast for which four lanes are left. -/
def crowded : List (Nat × Instr Reg) :=
  (List.range 6).map (fun k => (k, ⟨k, .vecElem .add ⟨16 + 8 * k, true⟩ ⟨8, true⟩ ⟨8, true⟩⟩)) ++
    [(6, ⟨6, .vecFma ⟨64, true⟩ ⟨8, true⟩ ⟨8, true⟩ ⟨8, true⟩⟩), (7, ⟨7, .vBroadcast ⟨72, true⟩ ⟨9, false⟩⟩)]

/-- A machine whose words hold their own addresses, but for the first eight. -/
def ownAddresses : Machine :=
  { Machine.init [] [] (fun _ => none) with core := { Core.init 0 with scratch := (List.range 80).map fun a => if a < 8 then 0 else a } }

theorem placements_refine_crowded : ∃ p pl' b m', FuncUnitPool.placeAll crowded .fresh Placement.init =
      .ok (List.replicate 7 (some true) ++ [some false], p, pl') ∧ (FuncUnitPool.slots p.bundle .alu).length = 12 ∧
    emitBundle p.bundle = .ok b ∧ ownAddresses.step b.untag = .ok m' ∧
    StepsAs ownAddresses m' Placement.init pl' (crowded.zip (List.replicate 7 (some true) ++ [some false])) := by
  have hrun : (do
      let (rs, p, _) ← FuncUnitPool.placeAll crowded .fresh Placement.init
      .ok (rs, (FuncUnitPool.slots p.bundle .alu).length)) =
      (.ok (List.replicate 7 (some true) ++ [some false], 12) : Except PyErr (List (Option Bool) × Nat)) := by decide +kernel
  have hnd : (crowded.map Prod.fst).Nodup := by decide +kernel
  have hkinds : ∀ c ∈ crowded, (classify c.2.op).kind ≠ .debug ∧ (classify c.2.op).kind ≠ .gather ∧
      Placement.init.val.lanesDone c.1 < (classify c.2.op).lanesTotal := by decide +kernel
  have hc : ∀ c ∈ crowded, Placeable Placement.init c := fun c hcm => ⟨(hkinds c hcm).1, (hkinds c hcm).2.1, (hkinds c hcm).2.2⟩
  have hdis : crowded.Pairwise fun c c' => ∀ a ∈ c.2.words, a ∉ c'.2.words := by decide +kernel
  have hdism : crowded.Pairwise fun c c' => ∀ a ∈ c.2.stored ownAddresses, a ∉ c'.2.stored ownAddresses := by decide +kernel
  have hown : ∀ c ∈ crowded, (c.2.own ownAddresses).toOption.isSome = true := by decide +kernel
  obtain ⟨rs, p, pl', hall, -, -, -, -, hsteps⟩ := placements_refine hnd hc (hdis.imp fun h a ha hb => h a ha hb)
  obtain ⟨b, m', hemit, hstep, hsame⟩ := hsteps ownAddresses (by decide +kernel) (by decide +kernel)
    (fun c hcm => by
      obtain ⟨u, hu⟩ := Option.isSome_iff_exists.mp (hown c hcm)
      exact ⟨u, toOption_eq_some.mp hu⟩) (hdism.imp fun h a ha hb => h a ha hb)
  obtain ⟨q, hq, hrun⟩ := bind_eq_ok.mp hrun
  cases hall.symm.trans hq
  obtain ⟨rfl, halu⟩ := Prod.mk.inj (Except.ok.inj hrun)
  exact ⟨p, pl', b, m', hall, halu, hemit, hstep, hsame⟩

end Vliw
