import FlowGraph.Pass

/-!
Elimination of blocks that only pass a run on: those with one instruction, a
branch. Whoever branches to such a block is made to branch to its target.

Blocks are looked at in order and removed after the last look. A block that
branches to itself stays. When the entry is such a block, the entry moves to
its target and the look ends there; what is left waits for the next call.
-/

namespace FlowGraph

/-- The branch of a block that has no other instruction. -/
def Block.soleBranch? (b : Block) : Option Instr :=
  match b.code with
  | [i] => if i.op = .br then some i else none
  | _ => none

namespace Graph

/-- The state of the elimination while it looks: the graph with branches
redirected so far, and the blocks to remove. -/
structure Bypass where
  graph : Graph
  -- the blocks to remove, first found first
  removed : List BlockId := []

/-- Redirects what leads to block `b`, which branches to `target`, and notes it
for removal. The flag says whether to go on looking. -/
def Bypass.take (s : Bypass) (b : Block) (target : BlockId) :
    Except (Bypass × PassError) (Bypass × Bool) :=
  let s : Bypass := { graph := s.graph.redirect b.id target, removed := s.removed ++ [b.id] }
  if s.graph.entry = some b.id then
    match s.graph.setEntry target with
    | .error v => .error (s, .refused .moveEntry v)
    | .ok g => .ok ({ s with graph := g }, false)
  else .ok (s, true)

/-- Looks at the blocks of a list, in order. -/
def Bypass.scan (s : Bypass) : List BlockId → Except (Bypass × PassError) Bypass
  | [] => .ok s
  | id :: rest =>
    match s.graph.block? id with
    | none => scan s rest
    | some b =>
      match b.soleBranch? with
      | none => scan s rest
      | some i =>
        match i.targets with
        | [target] =>
          if target = b.id then scan s rest
          else match s.take b target with
            | .error e => .error e
            | .ok (s, true) => scan s rest
            | .ok (s, false) => .ok s
        | ts => .error (s, .malformed (s.graph.violation b.id (some i) (.branchTargets ts.length)))

def eliminateEmpty (g : Graph) : PassResult Graph :=
  match g.malformedBlock? with
  | some v => { state := g, error := some (.malformed v) }
  | none =>
    match Bypass.scan { graph := g } g.order with
    | .error (s, e) => { state := s.graph, error := some e }
    | .ok s => (s.graph.removeAll s.removed).result .eliminateBlock !s.removed.isEmpty

end Graph

def emptyBlockElimination : Pass Graph where
  name := "empty-block-elimination"
  run := Graph.eliminateEmpty

end FlowGraph
