import VliwKernel.Regalloc.Allocator
import VliwKernel.Scheduler.Dag

/-!
# Tag chains and the RAW-only DAG

The first two steps of `regalloc.py`: every write gets a fresh version tag and every read the
tag of the latest write; the DAG has one RAW edge from the writer of a tag to each reader.
-/

namespace Vliw

/-- `const_vec_0`, the one symbol that the kernel builder pins. -/
def PINNED : List String := ["const_vec_0"]

def isPinned (pinned : List String) (b : Sym) : Bool := b.name ∈ pinned

/-- `fresh`: the tag `"<sym>#<n>"`. -/
def freshTag (sym : Sym) (n : Nat) : Sym := ⟨sym.name ++ "#" ++ toString n, sym.isVec⟩

structure TagState where
  current : Sym → Option Sym
  readCount : Sym → Option Int
  counter : Nat

namespace TagState

variable (pinned : List String)

def init : TagState := ⟨fun _ => none, fun _ => none, 0⟩

/-- The operand under the current version of its symbol. -/
def version (st : TagState) (o : Operand) : Operand :=
  if isPinned pinned o.base then o else o.withBase ((st.current o.base).getD o.base)

/-- A read operand: its symbol has a current version, whose read count goes up. -/
def read (st : TagState) (o : Operand) : Except PyErr TagState :=
  if isPinned pinned o.base then .ok st
  else do
    let tag ← getKey st.current o.base
    let n ← getKey st.readCount tag
    .ok { st with readCount := Function.update st.readCount tag (some (n + 1)) }

/-- A write operand: a fresh version of its symbol. -/
def write (st : TagState) (o : Operand) : TagState :=
  if isPinned pinned o.base then st
  else
    let tag := freshTag o.base st.counter
    { current := Function.update st.current o.base (some tag)
      readCount := Function.update st.readCount tag (some 0)
      counter := st.counter + 1 }

/-- One instruction: the reads see the versions before it, the write makes the next one. -/
def instr (st : TagState) (i : Instr Operand) : Except PyErr (Instr Operand × TagState) := do
  let st ← i.readOperands.foldlM (read pinned) st
  let st' := i.writeOperands.foldl (write pinned) st
  .ok (i.rebuild (st.version pinned) (st'.version pinned), st')

def instrs : List (Instr Operand) → TagState → Except PyErr (List (Instr Operand) × TagState)
  | [], st => .ok ([], st)
  | i :: is, st => do
      let (i, st) ← st.instr pinned i
      let (is, st) ← instrs is st
      .ok (i :: is, st)

end TagState

/-- `tag_raw_chains`: the tagged instructions and the read counts. -/
def tagRawChains (instrs : List (Instr Operand)) (pinned : List String) :
    Except PyErr (List (Instr Operand) × (Sym → Option Int)) := do
  let (tagged, st) ← TagState.instrs pinned instrs .init
  .ok (tagged, st.readCount)

def recomputeReadCount (instrs : List (Instr Operand)) (pinned : List String) : Sym → Option Int :=
  (instrs.flatMap Instr.readOperands).foldl (fun counts o =>
    if isPinned pinned o.base then counts
    else Function.update counts o.base (some ((counts o.base).getD 0 + 1))) (fun _ => none)

namespace BuildDag

variable (pinned : List String)

structure State where
  nodes : List DNode
  writer : Sym → Option Nat

def addSource (writer : Sym → Option Nat) (seen : List Nat) (o : Operand) : List Nat :=
  if isPinned pinned o.base then seen
  else
    match writer o.base with
    | none => seen
    | some src => if src ∈ seen then seen else seen ++ [src]

/-- The writers of the tags that an instruction reads, each once, in the order of the reads. -/
def sources (writer : Sym → Option Nat) (i : Instr Operand) : List Nat :=
  i.readOperands.foldl (addSource pinned writer) []

def addOutEdge (idx : Nat) (nodes : List DNode) (src : Nat) : List DNode :=
  nodes.modify src fun n => { n with outEdges := n.outEdges ++ [(idx, 1)] }

/-- One instruction becomes a node with an edge from each source. -/
def step (st : State) (i : Instr Operand) : State :=
  let idx := st.nodes.length
  let srcs := sources pinned st.writer i
  { nodes := srcs.foldl (addOutEdge idx) (st.nodes ++ [⟨idx, i, srcs.map (·, 1), []⟩])
    writer := i.writeOperands.foldl (fun writer o =>
      if isPinned pinned o.base then writer else Function.update writer o.base (some idx)) st.writer }

end BuildDag

def buildDag (tagged : List (Instr Operand)) (pinned : List String) : Except PyErr Dag :=
  Dag.fromNodes (tagged.foldl (BuildDag.step pinned) ⟨[], fun _ => none⟩).nodes

end Vliw
