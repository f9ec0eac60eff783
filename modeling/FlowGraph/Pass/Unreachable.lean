import FlowGraph.Pass
import FlowGraph.Pass.Reach

/-!
Elimination of the blocks that no run from the entry reaches.
-/

namespace FlowGraph

namespace Graph

/-- The numbers of the live blocks that are not reached, in ascending order.
There is no answer if one of them is negative. -/
def deadBlocks? (g : Graph) (reached : KeySet) : Option (List BlockId) :=
  let dead := (g.blocks.map (·.id)).filter (fun id => !reached.contains id)
  (dead.foldlM KeySet.insert? (KeySet.ofSize g.cap)).map
    (fun s => s.toList.map Int.ofNat)

/-- The graph with the code of the listed blocks dropped. Each must be live. -/
def clearAll (g : Graph) : List BlockId → Option Graph
  | [] => some g
  | id :: rest =>
    if g.has id then (g.modifyBlock id (fun b => { b with code := [] })).clearAll rest else none

/-- One call of the elimination. Dead blocks may branch to each other, so their
code is dropped before the first of them is removed. -/
def eliminateUnreachable (g : Graph) : PassResult Graph :=
  match g.malformedBlock? with
  | some v => { state := g, error := some (.malformed v) }
  | none =>
    match g.reachable? with
    | none => { state := g, error := some .crash }
    | some reached =>
      if reached.size = g.order.length then { state := g }
      else match g.deadBlocks? reached with
        | none => { state := g, error := some .crash }
        | some dead =>
          match g.clearAll dead with
          | none => { state := g, error := some .crash }
          | some cleared => (cleared.removeAll dead).result .removeUnreachable true

end Graph

def unreachableBlockElimination : Pass Graph where
  name := "unreachable-block-elimination"
  run := Graph.eliminateUnreachable

end FlowGraph
