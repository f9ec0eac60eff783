import FlowGraph.Violation

/-!
The edges of a graph and the edits that follow them: who branches where, how
an edge is redirected, how the entry moves, and when a block may be removed.
Edges are read off the instructions at each question, so they are never stale.
-/

namespace FlowGraph.Graph

/-! ## Questions -/

/-- The blocks that the terminator of a block names, in order and with repeats.
A number that is not live has none. -/
def successors (g : Graph) (id : BlockId) : List BlockId :=
  ((g.block? id).map (·.targets)).getD []

/-- The live blocks that branch to `id`, each once, in order. -/
def predecessors (g : Graph) (id : BlockId) : List BlockId :=
  g.order.filter (fun p => (g.successors p).contains id)

/-- All instructions of the live blocks, in order. -/
def instrs (g : Graph) : List Instr := g.blocks.flatMap (·.code)

/-- The first instruction that names block `id`. -/
def referencedBy? (g : Graph) (id : BlockId) : Option Instr :=
  g.instrs.find? (fun i => i.targets.contains id)

/-! ## Edits -/

/-- The graph with the terminator of block `place` redirected from `old` to `new`. -/
def redirectFrom (g : Graph) (old new place : BlockId) : Graph :=
  g.modifyBlock place (Block.redirectTerminator old new)

/-- How many operands a rewrite of the terminator of block `place` changes. -/
def countAt (g : Graph) (old place : BlockId) : Nat :=
  (((g.block? place).bind Block.terminator?).map (·.countTarget old)).getD 0

/-- The graph with every branch to `old` made into a branch to `new`. -/
def redirect (g : Graph) (old new : BlockId) : Graph :=
  (g.predecessors old).foldl (fun g p => g.redirectFrom old new p) g

/-- One more rewrite, with what all of them have counted. -/
def redirectNext (old new : BlockId) (r : Graph × Nat) (place : BlockId) : Graph × Nat :=
  (r.1.redirectFrom old new place, r.2 + r.1.countAt old place)

/-- The terminators of all that branch to `old` rewritten one after the other, with the
sum of what the rewrites give back. -/
def redirectCounting (g : Graph) (old new : BlockId) : Graph × Nat :=
  (g.predecessors old).foldl (redirectNext old new) (g, 0)

/-- The graph with its entry at `id`, which must be live. -/
def setEntry (g : Graph) (id : BlockId) : Except Violation Graph :=
  if g.has id then .ok { g with entry := some id }
  else .error (g.violation id none (.noSuchEntry id))

/-- The graph without the live block `id`: its slot is empty and it has left the order. -/
def dropBlock (g : Graph) (id : BlockId) : Graph :=
  { g with slots := g.slots.set id.toNat none, order := g.order.erase id }

/-- Why the block `id` may not be removed, if it may not: it is not live, it is
the entry, it is the only one, or an instruction still names it. -/
def removalFault? (g : Graph) (id : BlockId) : Option Violation :=
  if !g.has id then some (g.violation id none .removeDead)
  else if g.entry = some id then some (g.violation id none .removeEntry)
  else if g.order.length = 1 then some (g.violation id none .removeLast)
  else (g.referencedBy? id).map (fun i => g.violation id (some i) (.removeReferenced i.block))

/-- The graph without block `id`, if it may be removed. -/
def removeBlock (g : Graph) (id : BlockId) : Except Violation Graph :=
  match g.removalFault? id with
  | some v => .error v
  | none => .ok (g.dropBlock id)

end FlowGraph.Graph
