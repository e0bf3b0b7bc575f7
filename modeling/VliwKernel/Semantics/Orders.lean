import VliwKernel.Regalloc.DataFlow
import VliwKernel.Semantics.Values
import Mathlib.Data.List.Induction

/-!
# Any order of the edges

A tagged program may run in any order that has each writer of a tag before its readers, as long as no word
is both loaded and stored: the values are those of the original program in its own order.
-/

namespace Vliw

def reordered (is : List (Instr Operand)) (order : List Nat) : List (Instr Operand) := order.filterMap (is[·]?)

/-- Every node once, after the nodes it has an edge from. -/
structure LinearExtension (nodes : List DNode) (order : List Nat) : Prop where
  perm : order.Perm (List.range nodes.length)
  before : ∀ {pre j post}, order = pre ++ j :: post → ∀ e ∈ Dag.inEdges nodes j, e.1 ∈ pre

instance (nodes : List DNode) (order : List Nat) : Decidable (LinearExtension nodes order) :=
  decidable_of_iff (order.Perm (List.range nodes.length) ∧
      ∀ k < order.length, ∀ j ∈ order[k]?, ∀ e ∈ Dag.inEdges nodes j, e.1 ∈ order.take k) <| by
    refine ⟨fun h => ⟨h.1, ?_⟩, fun h => ⟨h.perm, fun k hk j hj e he => ?_⟩⟩
    · rintro pre j post rfl e he
      simpa using h.2 pre.length (by simp) j (by simp) e he
    · obtain ⟨hlt, rfl⟩ := List.getElem?_eq_some_iff.mp hj
      exact h.before (by rw [List.getElem_cons_drop, List.take_append_drop]) e he

/-- `order` gives every tag the value that its symbol has after the write in program order, and every store
the same words. -/
structure SameValues (is tagged : List (Instr Operand)) (order : List Nat) (s w : SymState) : Prop where
  tag : ∀ {i x t}, WritesTag is i x → WritesTag tagged i t → ∃ v, SymState.run (is.take (i + 1)) s = .ok v ∧ w.env t = v.env x
  store : ∀ {k i : Nat}, order[k]? = some i → ∃ ins u jns v, RunsIn is s i ins u ∧ RunsIn (reordered tagged order) s k jns v ∧
    jns.op.stores v.env.read = ins.op.stores u.env.read

variable {pinned : List String} {is tagged : List (Instr Operand)} {rc : Sym → Option Int} {nodes : List DNode}
  {order done : List Nat} {s s' u v : SymState} {ins jns : Instr Operand} {i j : Nat}

/-- After the instructions `done`, their tags have the final values, and other words are as at the start. -/
structure Settled (pinned : List String) (is : List (Instr Operand)) (s s' : SymState) (done : List Nat) (u : SymState) : Prop where
  pinned : ∀ {x}, isPinned pinned x = true → u.env x = s'.env x
  tag : ∀ {i t}, i ∈ done → WritesTag is i t → u.env t = s'.env t
  length : u.mem.length = s.mem.length
  word : ∀ {a}, (∀ {i : Nat} {ins : Instr Operand} {p : Nat × Nat}, is[i]? = some ins → p ∈ ins.op.stores s'.env.read → p.1 ≠ a) →
    u.mem[a]? = s.mem[a]?

section order

variable (ht : Tagged pinned is rc) (hs : WholeWrites pinned is) (hrun : SymState.run is s = .ok s')
  (hapart : ∀ {i j a}, LoadsAt is s i a → ¬ StoresAt is s j a)

include ht hs hrun hapart

theorem Settled.step {dag : Dag} (hd : DagOf pinned is dag) (h : Settled pinned is s s' done u) (hj : is[j]? = some jns)
    (hin : ∀ e ∈ Dag.inEdges dag.nodes j, e.1 ∈ done) :
    (∀ o ∈ jns.op.readOperands, u.env.read o = s'.env.read o) ∧
      ∃ v, u.step jns = .ok v ∧ Settled pinned is s s' (done ++ [j]) v := by
  have hload : LoadsFirst is s := fun hl hst => absurd hst (hapart hl)
  obtain ⟨vals, hvals, hdest, hinside⟩ := final_at ht hs hrun hload hj
  have hreads : ∀ o ∈ jns.op.readOperands, u.env.read o = s'.env.read o := by
    intro o ho
    have hx : u.env o.base = s'.env o.base := by
      cases hp : isPinned pinned o.base with
      | true => exact h.pinned hp
      | false =>
          obtain ⟨i, hij, hw⟩ := ht.defined hj ho hp
          exact h.tag (hin (i, 1) (hd.edge.mpr ⟨rfl, hij, jns, o, hj, ho, hp, hw⟩)) hw
    funext k
    rw [Env.read, Env.read, hx]
  have hwords : ∀ a ∈ jns.op.loads s'.env.read, u.mem[a]? = s.mem[a]? := by
    intro a ha
    refine h.word fun {i ins p} hi hp hpa => ?_
    obtain ⟨u₁, -, hu₁, -, -, -, hr₁, -⟩ := meaning_at ht hs hrun hload hj
    obtain ⟨u₂, -, hu₂, -, -, -, hr₂, -⟩ := meaning_at ht hs hrun hload hi
    refine hapart ⟨jns, u₁, hu₁, by rwa [Op.loads_congr hr₁]⟩ ⟨ins, u₂, hu₂, List.mem_map.mpr ⟨p, ?_, hpa⟩⟩
    rwa [Op.stores_congr hr₂]
  have hlanes : (List.range jns.op.width).mapM (jns.op.lane u.env.read u.mem) = .ok vals := by
    rw [← hvals]
    refine mapM_congr fun k hk => ?_
    rw [Op.lane_congr hreads]
    exact Op.lane_mem (List.mem_range.mp hk) hwords
  obtain ⟨mem, hmem⟩ := @Machine.applyWrites_ok (jns.op.stores u.env.read) u.mem fun p hp => by
    rw [Op.stores_congr hreads] at hp
    exact h.length ▸ hinside p hp
  refine ⟨hreads, _, bind_eq_ok.mpr ⟨vals, hlanes, bind_eq_ok.mpr ⟨mem, hmem, rfl⟩⟩, ?_⟩
  have hwrite : ∀ {d}, jns.op.dest? = some d → u.env.write d vals = Function.update u.env d.base (s'.env d.base) := by
    intro d hjd
    obtain ⟨-, y, rfl⟩ := hs jns (List.mem_of_getElem? hj) hjd
    rw [hdest hjd]
    rfl
  have hother : ∀ {x}, (∀ d, jns.op.dest? = some d → d.base ≠ x) →
      ((jns.op.dest?.map fun d => u.env.write d vals).getD u.env) x = u.env x := by
    intro x hx
    cases hjd : jns.op.dest? with
    | none => rfl
    | some d => exact congrFun (hwrite hjd) x |>.trans (Function.update_of_ne (Ne.symm (hx d hjd)) _ _)
  constructor
  case pinned =>
    intro x hx
    refine (hother fun d hjd hdx => ?_).trans (h.pinned hx)
    have := (hs jns (List.mem_of_getElem? hj) hjd).1
    rw [hdx, hx] at this
    cases this
  case tag =>
    intro i t hi hw
    by_cases hjt : ∃ d, jns.op.dest? = some d ∧ d.base = t
    · obtain ⟨d, hjd, rfl⟩ := hjt
      dsimp only
      rw [hjd, Option.map_some, Option.getD_some, hwrite hjd, Function.update_self]
    · refine (hother fun d hjd hdt => hjt ⟨d, hjd, hdt⟩).trans (h.tag ?_ hw)
      rcases List.mem_append.mp hi with hi | hi
      · exact hi
      · obtain rfl := List.mem_singleton.mp hi
        obtain ⟨ins, d, hins, hd', hdt⟩ := hw
        cases hj.symm.trans hins
        exact absurd ⟨d, hd', hdt⟩ hjt
  case length => exact (Machine.applyWrites_length hmem).1.trans h.length
  case word =>
    intro a ha
    refine (Machine.applyWrites_of_ne hmem fun p hp => ?_).trans (h.word ha)
    exact ha hj (by rwa [← Op.stores_congr hreads])

/-- Every prefix of a linear extension runs, and each instruction computes its final values. -/
theorem Settled.run {dag : Dag} (hd : DagOf pinned is dag) (hext : LinearExtension dag.nodes order) {pre post : List Nat}
    (hpre : order = pre ++ post) : ∃ u, SymState.run (reordered is pre) s = .ok u ∧ Settled pinned is s s' pre u := by
  induction pre using List.reverseRecOn generalizing post with
  | nil => exact ⟨s, rfl, fun hx => (SymState.env_pinned hs hrun hx).symm, (fun hi => by cases hi), rfl, fun _ => rfl⟩
  | append_singleton pre j ih =>
      rw [List.append_assoc, List.singleton_append] at hpre
      obtain ⟨u, hu, h⟩ := ih hpre
      have hj : j < is.length := by
        have : j ∈ order := by rw [hpre]; simp
        rw [← hd.length]
        exact List.mem_range.mp (hext.perm.mem_iff.mp this)
      obtain ⟨-, v, hv, h'⟩ := h.step ht hs hrun hapart hd (List.getElem?_eq_getElem hj) (hext.before hpre)
      refine ⟨v, ?_, h'⟩
      rw [reordered, List.filterMap_append, SymState.run]
      refine foldlM_append_ok.mpr ⟨u, hu, ?_⟩
      rw [List.filterMap_cons, List.getElem?_eq_getElem hj]
      exact bind_eq_ok.mpr ⟨v, hv, rfl⟩

end order

theorem length_reordered (h : ∀ i ∈ order, i < is.length) : (reordered is order).length = order.length := by
  induction order with
  | nil => rfl
  | cons i order ih =>
      rw [reordered, List.filterMap_cons, List.getElem?_eq_getElem (h i (by simp))]
      exact congrArg (· + 1) (ih fun j hj => h j (by simp [hj]))

theorem reordered_getElem? (h : ∀ i ∈ order, i < is.length) (k : Nat) : (reordered is order)[k]? = order[k]?.bind (is[·]?) := by
  induction order generalizing k with
  | nil => rfl
  | cons i order ih =>
      rw [reordered, List.filterMap_cons, List.getElem?_eq_getElem (h i (by simp))]
      cases k with
      | zero => exact (List.getElem?_eq_getElem (h i (by simp))).symm
      | succ k => exact ih (fun j hj => h j (by simp [hj])) k

theorem DataFlow.wholeWrites (h : DataFlow pinned is tagged rc) (hs : WholeWrites pinned is) : WholeWrites pinned tagged := by
  intro jns hjns d hd
  obtain ⟨j, hj⟩ := List.getElem?_of_mem hjns
  have hlt : j < is.length := h.length ▸ (List.getElem?_eq_some_iff.mp hj).1
  obtain ⟨rd, wr, hget, -, hw⟩ := h.instr (List.getElem?_eq_getElem hlt)
  cases hj.symm.trans hget
  rw [TagState.dest?_rebuild, Option.map_eq_some_iff] at hd
  obtain ⟨d, hd, rfl⟩ := hd
  obtain ⟨t, ht, htp⟩ := hw hd
  obtain ⟨-, x, rfl⟩ := hs _ (List.getElem_mem hlt) hd
  exact ⟨by rw [ht, Operand.base_withBase]; exact htp, t, ht⟩

/-- Any linear extension of the edges computes what the original program does. -/
theorem sameValues {dag : Dag} (hp : NoHash pinned) (hs : WholeWrites pinned is) (ht : tagRawChains is pinned = .ok (tagged, rc))
    (hflow : DataFlow pinned is tagged rc) (hd : DagOf pinned tagged dag) (hrun : SymState.run is s = .ok s')
    (hapart : ∀ {i j a}, LoadsAt is s i a → ¬ StoresAt is s j a) (hext : LinearExtension dag.nodes order) :
    ∃ w, SymState.run (reordered tagged order) s = .ok w ∧ SameValues is tagged order s w := by
  have htag := tagRawChains_tagged hp ht
  have hs' := hflow.wholeWrites hs
  obtain ⟨⟨_, st⟩, hi, ht⟩ := bind_eq_ok.mp ht
  cases ht
  obtain ⟨-, ⟨r, hr, -⟩, hruns⟩ := (Renamed.init s).run hp hs hi hrun
  have hapart' : ∀ {i j a}, LoadsAt tagged s i a → ¬ StoresAt tagged s j a := by
    rintro i j a ⟨ins, u, hu, ha⟩ ⟨jns, v, hv, hb⟩
    obtain ⟨ins₀, u₀, hu₀, -, -, hl, -⟩ := hruns hu
    obtain ⟨jns₀, v₀, hv₀, -, -, -, hst⟩ := hruns hv
    exact hapart ⟨ins₀, u₀, hu₀, hl ▸ ha⟩ ⟨jns₀, v₀, hv₀, hst ▸ hb⟩
  obtain ⟨w, hw, hset⟩ := Settled.run htag hs' hr hapart' hd hext (List.append_nil order).symm
  have hmem : ∀ {i}, i ∈ order ↔ i < tagged.length := fun {i} => by
    rw [hext.perm.mem_iff, List.mem_range, hd.length]
  refine ⟨w, hw, ?_, ?_⟩
  case refine_1 =>
    rintro i x t ⟨ins, d, hins, hdd, rfl⟩ hwt
    rw [hset.tag (hmem.mpr hwt.lt) hwt]
    obtain ⟨jns, d', hj, hd', rfl⟩ := hwt
    obtain ⟨u, v, hu, hv, htake, -⟩ := SymState.runsIn hrun hins
    obtain ⟨u', v', hu', hv', -, hdrop⟩ := SymState.runsIn hr hj
    obtain ⟨ins₀, u₀, hu₀, hmem', hlane, -⟩ := hruns hu'
    cases hins.symm.trans hu₀.1
    cases hu.2.symm.trans hu₀.2
    obtain ⟨-, x, rfl⟩ := hs ins (List.mem_of_getElem? hins) hdd
    obtain ⟨-, t, rfl⟩ := hs' jns (List.mem_of_getElem? hj) hd'
    obtain ⟨vals, hvals, hx⟩ := SymState.step_env hv hdd
    obtain ⟨vals', hvals', ht⟩ := SymState.step_env hv' hd'
    have hwidth : jns.op.width = ins.op.width := by
      obtain ⟨rd, wr, hget, -⟩ := hflow.instr hins
      cases hj.symm.trans hget
      exact Op.width_rebuild ..
    rw [hwidth, hmem', hlane, hvals] at hvals'
    cases hvals'
    exact ⟨v, htake, ((SymState.env_final htag hs' hj hd' hdrop).trans ht).trans hx.symm⟩
  case refine_2 =>
    intro k i hk
    obtain ⟨hlt, hki⟩ := List.getElem?_eq_some_iff.mp hk
    have hsplit : order = order.take k ++ i :: order.drop (k + 1) := by
      rw [← hki, List.getElem_cons_drop, List.take_append_drop]
    have hi' : i < tagged.length := hmem.mp (hki ▸ List.getElem_mem hlt)
    obtain ⟨v, hv, hpre⟩ := Settled.run htag hs' hr hapart' hd hext hsplit
    obtain ⟨hreads, -⟩ := hpre.step htag hs' hr hapart' hd (List.getElem?_eq_getElem hi') (hext.before hsplit)
    obtain ⟨u', -, hu', -, -, -, hreads', -⟩ :=
      meaning_at htag hs' hr (fun hl hst => absurd hst (hapart' hl)) (List.getElem?_eq_getElem hi')
    obtain ⟨ins, u, hu, -, -, -, hst⟩ := hruns hu'
    refine ⟨ins, u, tagged[i], v, hu, ?_, ?_⟩
    · have hlen : (reordered tagged (order.take k)).length = k := by
        rw [length_reordered fun j hj => hmem.mp (List.mem_of_mem_take hj), List.length_take, Nat.min_eq_left (Nat.le_of_lt hlt)]
      have := @RunsIn.of_append _ _ _ tagged[i] (reordered tagged (order.drop (k + 1))) hv
      rw [hlen] at this
      rw [reordered, hsplit, List.filterMap_append, List.filterMap_cons, List.getElem?_eq_getElem hi']
      exact this
    · rw [Op.stores_congr hreads, ← Op.stores_congr hreads', hst]

def ReadsTag (is : List (Instr Operand)) (j : Nat) (t : Sym) : Prop :=
  ∃ ins o, is[j]? = some ins ∧ o ∈ ins.readOperands ∧ o.base = t

/-- One node an instruction, and one edge from each writer to each of its readers. -/
structure RawEdges (is : List (Instr Operand)) (nodes : List DNode) : Prop where
  length : nodes.length = is.length
  instr : ∀ {i : Nat} {n : DNode}, nodes[i]? = some n → is[i]? = some n.instr
  edge : ∀ {i j w}, (i, w) ∈ Dag.inEdges nodes j ↔ w = 1 ∧ ∃ t, WritesTag is i t ∧ ReadsTag is j t
  mirror : ∀ {i j w}, (j, w) ∈ Dag.outEdges nodes i ↔ (i, w) ∈ Dag.inEdges nodes j
  lt : ∀ {i j w}, (i, w) ∈ Dag.inEdges nodes j → i < j
  once : ∀ j, (Dag.inEdges nodes j).Nodup ∧ (Dag.outEdges nodes j).Nodup

theorem DataFlow.rawEdges {dag : Dag} (h : DataFlow pinned is tagged rc) (ht : Tagged pinned tagged rc)
    (hd : DagOf pinned tagged dag) : RawEdges tagged dag.nodes where
  length := hd.length
  instr := hd.instr
  edge := by
    intro i j w
    rw [hd.edge]
    refine and_congr_right fun _ => ⟨?_, ?_⟩
    · rintro ⟨-, ins, o, hj, ho, -, hw⟩
      exact ⟨o.base, hw, ins, o, hj, ho, rfl⟩
    · rintro ⟨_, hw, ins, o, hj, ho, rfl⟩
      have hp := h.unpinned hw
      obtain ⟨k, hk, hkw⟩ := ht.defined hj ho hp
      obtain rfl := ht.unique hp hw hkw
      exact ⟨hk, ins, o, hj, ho, hp, hw⟩
  mirror := hd.wf.mem_outEdges
  lt := fun he => (hd.edge.mp he).2.1
  once := by
    intro j
    refine ⟨hd.nodup j, List.nodup_iff_count_le_one.mpr fun e => ?_⟩
    rw [hd.wf.mirror j e.1 e.2]
    exact List.nodup_iff_count_le_one.mp (hd.nodup e.1) _

/-- Tagging and graph construction capture the data flow of a program whose reads are defined. -/
theorem tagging_dataFlow (hp : NoHash pinned) (h : Defined pinned is) : ∃ tagged rc, tagRawChains is pinned = .ok (tagged, rc) ∧
    DataFlow pinned is tagged rc ∧ (is ≠ [] → ∃ dag, buildDag tagged pinned = .ok dag ∧ RawEdges tagged dag.nodes ∧
      (WholeWrites pinned is → ∀ {s s'}, SymState.run is s = .ok s' → (∀ {i j a}, LoadsAt is s i a → ¬ StoresAt is s j a) →
        ∀ {order}, LinearExtension dag.nodes order →
          ∃ w, SymState.run (reordered tagged order) s = .ok w ∧ SameValues is tagged order s w)) := by
  obtain ⟨tagged, rc, ht, hflow⟩ := tagRawChains_dataFlow hp h
  have htag := tagRawChains_tagged hp ht
  refine ⟨tagged, rc, ht, hflow, fun hne => ?_⟩
  have hdag := buildDag_ok htag.toSingleWriter
  rw [if_neg fun hnil => hne (List.length_eq_zero_iff.mp (by rw [← hflow.length, hnil]; rfl))] at hdag
  obtain ⟨dag, hdag, hd⟩ := hdag
  refine ⟨dag, hdag, hflow.rawEdges htag hd, fun hs s s' hrun hapart order hext => ?_⟩
  exact sameValues hp hs ht hflow hd hrun hapart hext

/-- A product of two constants, which the graph leaves in either order. -/
def product : List (Instr Operand) :=
  [⟨0, .const (.sym ⟨"a", false⟩) 3⟩, ⟨1, .const (.sym ⟨"b", false⟩) 5⟩,
    ⟨2, .alu .mul (.sym ⟨"a", false⟩) (.sym ⟨"a", false⟩) (.sym ⟨"b", false⟩)⟩]

/-- The constants swapped, the product is the same. -/
theorem tagging_dataFlow_product : ∃ tagged rc dag w, tagRawChains product PINNED = .ok (tagged, rc) ∧
    buildDag tagged PINNED = .ok dag ∧ LinearExtension dag.nodes [1, 0, 2] ∧
    SymState.run (reordered tagged [1, 0, 2]) ⟨.zero, []⟩ = .ok w ∧ SameValues product tagged [1, 0, 2] ⟨.zero, []⟩ w ∧
    w.env ⟨"a#2", false⟩ 0 = 15 := by
  have hcompile : (do
      let x ← tagRawChains product PINNED
      let dag ← buildDag x.1 PINNED
      let s ← SymState.run product ⟨.zero, []⟩
      let w ← SymState.run (reordered x.1 [1, 0, 2]) ⟨.zero, []⟩
      .ok (decide (LinearExtension dag.nodes [1, 0, 2]), s.env ⟨"a", false⟩ 0, w.env ⟨"a#2", false⟩ 0)) =
        (.ok (true, 15, 15) : Except PyErr _) := by decide +kernel
  obtain ⟨⟨tagged, rc⟩, ht, hcompile⟩ := bind_eq_ok.mp hcompile
  obtain ⟨dag, hdag, hcompile⟩ := bind_eq_ok.mp hcompile
  obtain ⟨s, hs, hcompile⟩ := bind_eq_ok.mp hcompile
  obtain ⟨w, hw, hcompile⟩ := bind_eq_ok.mp hcompile
  obtain ⟨hext, -, hval⟩ := Prod.mk.inj (Except.ok.inj hcompile) |>.imp_right Prod.mk.inj
  obtain ⟨tagged', rc', ht', -, hrest⟩ := @tagging_dataFlow _ product pinned_noHash (by decide)
  cases ht.symm.trans ht'
  obtain ⟨dag', hdag', -, hsame⟩ := hrest (by decide)
  cases hdag.symm.trans hdag'
  have hapart : ∀ {i j a}, LoadsAt product ⟨.zero, []⟩ i a → ¬ StoresAt product ⟨.zero, []⟩ j a := by
    rintro i j a ⟨ins, u, ⟨hi, -⟩, ha⟩
    rcases i with _ | _ | _ | i
    case succ.succ.succ => cases hi
    all_goals
      cases hi
      cases ha
  have hwhole : WholeWrites PINNED product := by
    intro ins hins d hd
    simp only [product, List.mem_cons, List.not_mem_nil, or_false] at hins
    rcases hins with rfl | rfl | rfl
    all_goals
      cases hd
      exact ⟨by decide, _, rfl⟩
  obtain ⟨w', hw', hvals⟩ := hsame hwhole hs hapart (of_decide_eq_true hext)
  cases hw.symm.trans hw'
  exact ⟨tagged, rc, dag, w, ht, hdag, of_decide_eq_true hext, hw, hvals, hval⟩

/-- A vector, one lane of which is written after it, then stored. -/
def laneWrite : List (Instr Operand) :=
  [⟨0, .const (.sym ⟨"x", false⟩) 7⟩, ⟨1, .vBroadcast (.sym ⟨"v", true⟩) (.sym ⟨"x", false⟩)⟩,
    ⟨2, .const (.lane ⟨"v", true⟩ 0) 5⟩, ⟨3, .const (.sym ⟨"p", false⟩) 0⟩,
    ⟨4, .vStore (.sym ⟨"p", false⟩) (.sym ⟨"v", true⟩)⟩]

/-- Lane writes lose the other lanes, a pinned name that looks like a tag has no edges, and an empty program has
no graph. -/
theorem tagging_limits :
    (Defined PINNED laneWrite ∧ (∀ {i j a}, LoadsAt laneWrite ⟨.zero, List.range 8⟩ i a → ¬ StoresAt laneWrite ⟨.zero, List.range 8⟩ j a) ∧
      ∃ tagged rc dag w w', tagRawChains laneWrite PINNED = .ok (tagged, rc) ∧ buildDag tagged PINNED = .ok dag ∧
        LinearExtension dag.nodes [0, 1, 2, 3, 4] ∧ SymState.run laneWrite ⟨.zero, List.range 8⟩ = .ok w ∧
        SymState.run (reordered tagged [0, 1, 2, 3, 4]) ⟨.zero, List.range 8⟩ = .ok w' ∧
        w.mem = [5, 7, 7, 7, 7, 7, 7, 7] ∧ w'.mem = [5, 0, 0, 0, 0, 0, 0, 0]) ∧
    (∃ tagged rc dag, Defined ["a#0"] product ∧ tagRawChains product ["a#0"] = .ok (tagged, rc) ∧
      buildDag tagged ["a#0"] = .ok dag ∧ WritesTag tagged 0 ⟨"a#0", false⟩ ∧ ReadsTag tagged 2 ⟨"a#0", false⟩ ∧
      (0, 1) ∉ Dag.inEdges dag.nodes 2) ∧
    Defined PINNED [] ∧ ∃ tagged rc, tagRawChains [] PINNED = .ok (tagged, rc) ∧ buildDag tagged PINNED = .error .valueError := by
  have hlane : (do
      let x ← tagRawChains laneWrite PINNED
      let dag ← buildDag x.1 PINNED
      let w ← SymState.run laneWrite ⟨.zero, List.range 8⟩
      let w' ← SymState.run (reordered x.1 [0, 1, 2, 3, 4]) ⟨.zero, List.range 8⟩
      .ok (decide (LinearExtension dag.nodes [0, 1, 2, 3, 4]), w.mem, w'.mem)) =
        (.ok (true, [5, 7, 7, 7, 7, 7, 7, 7], [5, 0, 0, 0, 0, 0, 0, 0]) : Except PyErr _) := by decide +kernel
  have hhash : (do
      let x ← tagRawChains product ["a#0"]
      let dag ← buildDag x.1 ["a#0"]
      .ok (x.1, decide ((0, 1) ∈ Dag.inEdges dag.nodes 2))) = (.ok ([
        ⟨0, .const (.sym ⟨"a#0", false⟩) 3⟩, ⟨1, .const (.sym ⟨"b#1", false⟩) 5⟩,
        ⟨2, .alu .mul (.sym ⟨"a#2", false⟩) (.sym ⟨"a#0", false⟩) (.sym ⟨"b#1", false⟩)⟩], false) : Except PyErr _) := by
    decide +kernel
  refine ⟨⟨by decide, ?_, ?_⟩, ?_, by decide, [], _, rfl, rfl⟩
  · rintro i j a ⟨ins, u, ⟨hi, -⟩, ha⟩
    rcases i with _ | _ | _ | _ | _ | i
    case succ.succ.succ.succ.succ => cases hi
    all_goals
      cases hi
      cases ha
  · obtain ⟨⟨tagged, rc⟩, ht, hlane⟩ := bind_eq_ok.mp hlane
    obtain ⟨dag, hdag, hlane⟩ := bind_eq_ok.mp hlane
    obtain ⟨w, hw, hlane⟩ := bind_eq_ok.mp hlane
    obtain ⟨w', hw', hlane⟩ := bind_eq_ok.mp hlane
    obtain ⟨hext, hmem, hmem'⟩ := Prod.mk.inj (Except.ok.inj hlane) |>.imp_right Prod.mk.inj
    exact ⟨tagged, rc, dag, w, w', ht, hdag, of_decide_eq_true hext, hw, hw', hmem, hmem'⟩
  · obtain ⟨⟨tagged, rc⟩, ht, hhash⟩ := bind_eq_ok.mp hhash
    obtain ⟨dag, hdag, hhash⟩ := bind_eq_ok.mp hhash
    obtain ⟨rfl, hedge⟩ := Prod.mk.inj (Except.ok.inj hhash)
    exact ⟨_, rc, dag, by decide, ht, hdag, by decide, ⟨_, .sym ⟨"a#0", false⟩, rfl, by decide, rfl⟩, of_decide_eq_false hedge⟩

end Vliw
