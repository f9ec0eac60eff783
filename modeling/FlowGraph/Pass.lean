import FlowGraph.Graph.Verify

/-!
A pass over a graph: what it gives back, and how it can fail. A failing pass
still gives back a graph, since an edit may be half done when it stops.
-/

namespace FlowGraph

/-- What a pass was doing when an edit was refused. -/
inductive PassStep where
  | moveEntry
  | eliminateBlock
  | removeUnreachable
deriving DecidableEq

inductive PassError where
  | malformed (v : Violation)
  | refused (step : PassStep) (v : Violation)
  -- the pass cannot go on: it met a negative block number, or a block that is not there
  | crash
  | own (text : String)
deriving DecidableEq

/-- The words for what a pass was doing. -/
def PassStep.text : PassStep → String
  | moveEntry => "move entry"
  | eliminateBlock => "eliminate block"
  | removeUnreachable => "remove unreachable"

def PassError.message : PassError → String
  | malformed v => v.message
  | refused s v => s.text ++ ": " ++ v.message
  | crash => ""
  | own text => text

/-- What a pass gives back: what it ran over as it is now, whether it changed it,
what it took out, and its failure, if any. -/
structure PassResult (σ : Type) where
  state : σ
  -- the pass says it changed the graph
  changed : Bool := false
  -- the blocks taken out, with their numbers, as they were last
  removed : List (BlockId × Block) := []
  error : Option PassError := none

/-- A pass with its name. It runs over a graph, or over something that has one. -/
structure Pass (σ : Type) where
  name : String
  run : σ → PassResult σ

/-! ## Taking out blocks -/

/-- What is left after some blocks were to be removed. -/
structure Removal where
  graph : Graph
  removed : List (BlockId × Block) := []
  -- the removal that was refused, which ended it
  refused : Option Violation := none

/-- The removal of the blocks of a list, in order, up to the first that is refused. -/
def Graph.removeAll (g : Graph) : List BlockId → Removal
  | [] => { graph := g }
  | id :: rest =>
    match g.removeBlock id with
    | .error v => { graph := g, refused := some v }
    | .ok left =>
      let r := left.removeAll rest
      { r with removed := (g.block? id).toList.map (id, ·) ++ r.removed }

/-- The result of a pass that ends with removals. -/
def Removal.result (r : Removal) (step : PassStep) (changed : Bool) :
    PassResult Graph :=
  match r.refused with
  | some v => { state := r.graph, removed := r.removed, error := some (.refused step v) }
  | none => { state := r.graph, removed := r.removed, changed := changed }

end FlowGraph
