import VliwKernel.Ir
import VliwKernel.Lib.Journal
import VliwKernel.Lib.Outcome

/-!
# The register allocator

`RegisterAllocator` of `regalloc.py`. A dictionary that nothing iterates is its lookup
function; `_granule_free`, whose order the cycle-end garbage collection follows, is a `Dict`.
Every mutation that the source logs is recorded with the entry the source appends.
-/

namespace Vliw

/-- `d.pop(k)` and `del d[k]`: a missing key is a `KeyError`. -/
def popKey {κ ν : Type} [DecidableEq κ] (d : κ → Option ν) (k : κ) :
    Except PyErr (ν × (κ → Option ν)) :=
  match d k with
  | none => .error .keyError
  | some v => .ok (v, Function.update d k none)

def getKey {κ ν : Type} (d : κ → Option ν) (k : κ) : Except PyErr ν :=
  match d k with
  | none => .error .keyError
  | some v => .ok v

theorem getKey_eq_ok {κ ν : Type} {d : κ → Option ν} {k : κ} {v : ν} : getKey d k = .ok v ↔ d k = some v := by
  rw [getKey]
  cases d k <;> simp

/-- `xs.remove(x)`: the first occurrence, or a `ValueError`. -/
def removeFirst (xs : List Nat) (x : Nat) : Except PyErr (List Nat) :=
  if x ∈ xs then .ok (xs.erase x) else .error .valueError

/-- The tables an undo must restore; `remaining` counts the reads left before a tag is freed. -/
@[ext]
structure Tables where
  freeVec : List Nat
  granuleWords : Nat → Option (List Nat)
  granuleFree : Dict Nat Nat
  wordGranule : Nat → Option Nat
  claimOf : Nat → Option Nat
  assigned : Sym → Option Nat
  remaining : Sym → Option Int
  names : Nat → Option (String × Nat)

/-- How a scalar word was given back: the whole claim was reversed, or just the word. -/
inductive DeallocPath | rev | ret
  deriving DecidableEq, Repr

inductive AllocEntry
  | W (tag : Sym) (addr : Nat) (oldName : Option (String × Nat))
  | Ws (tag : Sym) (addr : Nat) (oldName : Option (String × Nat)) (claimed : Bool)
  | R (tag : Sym)
  | F (tag : Sym) (addr : Nat)
  | Fs (tag : Sym) (addr : Nat) (wasClaim : Bool)
  | U (tag : Sym) (addr : Nat) (wasClaim : Bool) (path : Option DeallocPath)

structure RegisterAllocator where
  tab : Logged Tables AllocEntry
  exhaustionWarnings : Nat
  nAlloc : Nat
  nFree : Nat

/-- `range(g, g + VLEN)`: the words of a granule. -/
def granuleRange (g : Nat) : List Nat := List.range' g VLEN

/-- `deque(range(VLEN, SCRATCH_SIZE, VLEN))`. -/
def allGranules : List Nat := List.range' VLEN ((SCRATCH_SIZE - VLEN) / VLEN) VLEN

def Tables.init : Tables where
  freeVec := allGranules
  granuleWords _ := none
  granuleFree := .empty
  wordGranule _ := none
  claimOf _ := none
  assigned _ := none
  remaining _ := none
  names := Function.update (fun _ => none) 0 (some ("const_vec_0", VLEN))

def RegisterAllocator.init : RegisterAllocator := ⟨⟨Tables.init, none⟩, 0, 0, 0⟩

namespace Tables

/-- One granule of the search: a free word, and fewer of them or as many at a lower address. -/
def betterFit (best : Option (Nat × Nat)) (gc : Nat × Nat) : Option (Nat × Nat) :=
  match best with
  | none => if 0 < gc.2 then some gc else none
  | some b => if 0 < gc.2 ∧ (gc.2 < b.2 ∨ (gc.2 = b.2 ∧ gc.1 < b.1)) then some gc else some b

/-- `_best_fit_granule`: the fullest claimed granule with a free word, the lowest of equals,
with its count. -/
def bestFit (t : Tables) : Option (Nat × Nat) := t.granuleFree.items.foldl betterFit none

def canWrite (t : Tables) (tag : Sym) : Bool :=
  (t.assigned tag).isSome ||
    if tag.isVec then !t.freeVec.isEmpty else t.bestFit.isSome || !t.freeVec.isEmpty

def freeScalarCount (t : Tables) : Nat := (t.granuleFree.items.map Prod.snd).sum

/-- Split a granule taken from the vector pool into eight free words. -/
def claim (t : Tables) (g : Nat) (rest : List Nat) : Tables :=
  { t with
    freeVec := rest
    granuleWords := Function.update t.granuleWords g (some (granuleRange g))
    wordGranule := fun w => if w ∈ granuleRange g then some g else t.wordGranule w
    granuleFree := t.granuleFree.set g VLEN }

/-- `_granule_words[g].pop()` and the count that goes with it. -/
def popWord (t : Tables) (g : Nat) : Except PyErr (Nat × Tables) := do
  let ws ← getKey t.granuleWords g
  let c ← getKey t.granuleFree.get? g
  match ws.getLast? with
  | none => .error .indexError
  | some addr =>
      .ok (addr, { t with
        granuleWords := Function.update t.granuleWords g (some ws.dropLast)
        granuleFree := t.granuleFree.set g (c - 1) })

/-- `_granule_words[g].append(addr)` and the count that goes with it. -/
def pushWord (t : Tables) (g addr : Nat) : Except PyErr Tables := do
  let ws ← getKey t.granuleWords g
  let c ← getKey t.granuleFree.get? g
  .ok { t with
    granuleWords := Function.update t.granuleWords g (some (ws ++ [addr]))
    granuleFree := t.granuleFree.set g (c + 1) }

/-- `_granule_words[g].remove(addr)` and the count that goes with it. -/
def removeWord (t : Tables) (g addr : Nat) : Except PyErr Tables := do
  let ws ← getKey t.granuleWords g
  let c ← getKey t.granuleFree.get? g
  let ws ← removeFirst ws addr
  .ok { t with
    granuleWords := Function.update t.granuleWords g (some ws)
    granuleFree := t.granuleFree.set g (c - 1) }

/-- Forget a claimed granule: the granule of each listed word, its word list and its count. -/
def dropGranule (t : Tables) (g : Nat) (words : List Nat) : Except PyErr Tables :=
  if words.all (fun w => (t.wordGranule w).isSome) ∧ (t.granuleWords g).isSome
      ∧ (t.granuleFree.get? g).isSome then
    .ok { t with
      wordGranule := fun w => if w ∈ words then none else t.wordGranule w
      granuleWords := Function.update t.granuleWords g none
      granuleFree := t.granuleFree.erase g }
  else .error .keyError

/-- The home of a new tag: a vector granule, or a word of the best-fitting granule, claiming a
fresh one when every claimed granule is full. The flag says that the word came from a claim. -/
def take (t : Tables) (tag : Sym) : Except PyErr (Nat × Bool × Tables) :=
  if tag.isVec then
    match t.freeVec with
    | [] => .error (.exhausted tag.name)
    | a :: rest => .ok (a, false, { t with freeVec := rest })
  else
    match t.bestFit with
    | some (g, _) => do
        let (addr, t) ← t.popWord g
        .ok (addr, false, t)
    | none =>
        match t.freeVec with
        | [] => .error (.exhausted tag.name)
        | g :: rest => do
            let (addr, t) ← (t.claim g rest).popWord g
            .ok (addr, true, { t with claimOf := Function.update t.claimOf addr (some g) })

/-- `assigned[tag] = addr` and `remaining[tag] = n`. -/
def assign (t : Tables) (tag : Sym) (addr : Nat) (n : Int) : Tables :=
  { t with
    assigned := Function.update t.assigned tag (some addr)
    remaining := Function.update t.remaining tag (some n) }

def unassign (t : Tables) (tag : Sym) : Except PyErr (Nat × Tables) := do
  let (addr, assigned) ← popKey t.assigned tag
  let (_, remaining) ← popKey t.remaining tag
  .ok (addr, { t with assigned := assigned, remaining := remaining })

/-- `tag.name.split("#")[0]`. -/
def baseName (tag : Sym) : String := String.ofList (tag.name.toList.takeWhile (· ≠ '#'))

def setName (t : Tables) (addr : Nat) (name : Option (String × Nat)) : Tables :=
  { t with names := Function.update t.names addr name }

def scalarDealloc (t : Tables) (addr : Nat) : Except PyErr (DeallocPath × Tables) := do
  let g ← getKey t.wordGranule addr
  if t.claimOf addr = some g ∧ t.granuleFree.get? g = some (VLEN - 1) then
    let t ← { t with claimOf := Function.update t.claimOf addr none }.dropGranule g (granuleRange g)
    .ok (.rev, { t with freeVec := g :: t.freeVec })
  else
    let t ← { t with claimOf := Function.update t.claimOf addr none }.pushWord g addr
    .ok (.ret, t)

/-- The entry that `write` logs for a home it has just taken. -/
def writeEntry (t : Tables) (tag : Sym) (addr : Nat) (claimed : Bool) : AllocEntry :=
  if tag.isVec then .W tag addr (t.names addr) else .Ws tag addr (t.names addr) claimed

end Tables

open Tables

def AllocEntry.undo (rc : Sym → Option Int) : AllocEntry → Tables → Except PyErr Tables
  | .W tag addr oldName, t => do
      let (_, t) ← t.unassign tag
      .ok ({ t with freeVec := addr :: t.freeVec }.setName addr oldName)
  | .Ws tag addr oldName claimed, t => do
      let (_, t) ← t.unassign tag
      if claimed then
        let (g, claimOf) ← popKey t.claimOf addr
        let t ← { t with claimOf := claimOf }.dropGranule g (granuleRange g)
        .ok ({ t with freeVec := g :: t.freeVec }.setName addr oldName)
      else
        let g ← getKey t.wordGranule addr
        .ok ((← t.pushWord g addr).setName addr oldName)
  | .R tag, t => do
      let n ← getKey t.remaining tag
      .ok { t with remaining := Function.update t.remaining tag (some (n + 1)) }
  | .F tag addr, t => do
      let freeVec ← removeFirst t.freeVec addr
      .ok ({ t with freeVec := freeVec }.assign tag addr 0)
  | .Fs tag addr wasClaim, t => do
      let g ← getKey t.wordGranule addr
      let t ← t.removeWord g addr
      let t := if wasClaim then { t with claimOf := Function.update t.claimOf addr (some g) } else t
      .ok (t.assign tag addr 0)
  | .U tag addr wasClaim path, t => do
      let t ← if tag.isVec then do
          .ok { t with freeVec := ← removeFirst t.freeVec addr }
        else if path = some .rev then do
          let g := addr - addr % VLEN
          let freeVec ← removeFirst t.freeVec g
          .ok { t with
            claimOf := Function.update t.claimOf addr (some g)
            freeVec := freeVec
            wordGranule := fun w => if w ∈ granuleRange g then some g else t.wordGranule w
            granuleWords := Function.update t.granuleWords g (some ((granuleRange g).filter (· ≠ addr)))
            granuleFree := t.granuleFree.set g (VLEN - 1) }
        else do
          let g ← getKey t.wordGranule addr
          let t ← t.removeWord g addr
          .ok (if wasClaim then { t with claimOf := Function.update t.claimOf addr (some g) } else t)
      .ok (t.assign tag addr (← getKey rc tag))

namespace RegisterAllocator

variable (rc : Sym → Option Int)

def canWrite (a : RegisterAllocator) (tag : Sym) : Bool := a.tab.val.canWrite tag

/-- Allocate the register of `tag`, or return the one it already holds. -/
def write (a : RegisterAllocator) (tag : Sym) : Except PyErr (Nat × RegisterAllocator) :=
  match a.tab.val.assigned tag with
  | some addr => .ok (addr, a)
  | none => do
      let (addr, claimed, t) ← a.tab.val.take tag
      let n ← getKey rc tag
      let t' := (t.assign tag addr n).setName addr (some (baseName tag, if tag.isVec then VLEN else 1))
      .ok (addr, { a with tab := a.tab.record t' (t.writeEntry tag addr claimed), nAlloc := a.nAlloc + 1 })

/-- Take back a speculative `write`; a tag whose reads have begun is left alone. -/
def unwrite (a : RegisterAllocator) (tag : Sym) : Except PyErr RegisterAllocator := do
  let n ← getKey rc tag
  if a.tab.val.remaining tag = some n ∧ (a.tab.val.assigned tag).isSome then
    let (addr, t) ← a.tab.val.unassign tag
    let wasClaim := (t.claimOf addr).isSome
    if tag.isVec then
      .ok { a with tab := a.tab.record { t with freeVec := addr :: t.freeVec } (.U tag addr wasClaim none) }
    else
      let (path, t) ← t.scalarDealloc addr
      .ok { a with tab := a.tab.record t (.U tag addr wasClaim (some path)) }
  else .ok a

/-- One read of `tag` committed; its register is freed with the last one. -/
def read (a : RegisterAllocator) (tag : Sym) : Except PyErr RegisterAllocator := do
  let n ← getKey a.tab.val.remaining tag
  let tab := a.tab.record
    { a.tab.val with remaining := Function.update a.tab.val.remaining tag (some (n - 1)) } (.R tag)
  if n - 1 = 0 then
    let (addr, t) ← tab.val.unassign tag
    if tag.isVec then
      .ok { a with tab := tab.record { t with freeVec := t.freeVec ++ [addr] } (.F tag addr)
                   nFree := a.nFree + 1 }
    else
      let g ← getKey t.wordGranule addr
      let t ← t.pushWord g addr
      let wasClaim := (t.claimOf addr).isSome
      .ok { a with tab := tab.record { t with claimOf := Function.update t.claimOf addr none }
                     (.Fs tag addr wasClaim)
                   nFree := a.nFree + 1 }
  else .ok { a with tab := tab }

def reclaim (t : Tables) (g : Nat) : Except PyErr Tables := do
  let t' ← t.dropGranule g (← getKey t.granuleWords g)
  .ok { t' with freeVec := t'.freeVec ++ [g] }

/-- `collect_scalar_garbage`: outside every checkpoint, so nothing is logged. -/
def collectScalarGarbage (a : RegisterAllocator) : Except PyErr RegisterAllocator := do
  let reclaimable := (a.tab.val.granuleFree.items.filter (·.2 = VLEN)).map Prod.fst
  let t ← reclaimable.foldlM reclaim a.tab.val
  .ok { a with tab := ⟨t, a.tab.log⟩ }

def checkpoint (a : RegisterAllocator) : Nat × RegisterAllocator :=
  (a.tab.checkpoint.1, { a with tab := a.tab.checkpoint.2 })

def rollback (a : RegisterAllocator) (token : Nat) : Except PyErr RegisterAllocator := do
  .ok { a with tab := ← a.tab.rollback (AllocEntry.undo rc) .assertion token }

/-- `addr_of`: an unassigned tag resolves as the pinned zero vector. -/
def addrOf (a : RegisterAllocator) (o : Operand) : Nat := (a.tab.val.assigned o.base).getD 0 + o.offset

end RegisterAllocator

def resolveOperands (i : Instr Operand) (a : RegisterAllocator) : Instr Reg :=
  i.rebuild (fun o => ⟨a.addrOf o, o.isVec⟩) (fun o => ⟨a.addrOf o, o.isVec⟩)

end Vliw
