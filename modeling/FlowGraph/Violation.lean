import FlowGraph.Graph
import FlowGraph.Text.Quoted

/-!
What is wrong with a malformed graph: the reason, and the place where it was
found. A violation points at a mistake of whoever built or changed the graph,
never at the text it was read from.
-/

namespace FlowGraph

/-- Why a graph is malformed, or why an edit of it is refused. -/
inductive Reason where
  | noBlocks
  | releasedSlot
  | listedTwice
  | entryNotLive
  | foreignOwner
  | noInstructions
  | earlyTerminator
  | missingTerminator
  | strayInstruction (block : BlockId)
  | unknownOperation
  | unknownOperand (kind : UInt8)
  | malformedOperands (values blocks : Nat)
  | danglingEdge (target : BlockId)
  | noSuchEntry (id : BlockId)
  | removeDead
  | removeEntry
  | removeLast
  | removeReferenced (block : BlockId)
  | branchTargets (count : Nat)
  | noEntryBlock
  | other (text : String)
deriving DecidableEq

def Reason.message : Reason → String
  | noBlocks => "handler has no blocks"
  | releasedSlot => "block order refers to a released slot"
  | listedTwice => "block listed twice"
  | entryNotLive => "entry is not a live block"
  | foreignOwner => "block owner back-reference mismatch"
  | noInstructions => "block has no instructions"
  | earlyTerminator => "terminator is not the last instruction"
  | missingTerminator => "block does not end with a terminator"
  | strayInstruction b => "instruction back-reference points to block #" ++ toString b
  | unknownOperation => "unknown operation"
  | unknownOperand k => "unknown operand kind " ++ toString k.toNat
  | malformedOperands v b =>
    "malformed operands: " ++ toString v ++ " values, " ++ toString b ++ " blocks"
  | danglingEdge t => "dangling edge to block #" ++ toString t
  | noSuchEntry id => "entry " ++ toString id ++ " is not a live block"
  | removeDead => "remove: not a live block"
  | removeEntry => "remove: entry block"
  | removeLast => "remove: last block of handler"
  | removeReferenced b => "remove: block is still referenced from block #" ++ toString b
  | branchTargets n => "branch has " ++ toString n ++ " targets"
  | noEntryBlock => "no entry block"
  | other text => text

/-- A violation: the function, the block and the instruction at fault, and why. -/
structure Violation where
  function : String
  -- the block, or `noBlock` for the graph as a whole
  block : BlockId
  -- the name of the block if it is live, else the empty name
  blockName : String
  -- the number and the operation of the instruction, if one is at fault
  instr : Option (ValueId × Op)
  reason : Reason
deriving DecidableEq

namespace Violation

/-- The part of a message that names the block. -/
def blockText (v : Violation) : String :=
  if v.block = noBlock then ""
  else if v.blockName = "" then ": block #" ++ toString v.block
  else ": block " ++ v.blockName ++ "#" ++ toString v.block

/-- The part of a message that names the instruction. -/
def instrText (v : Violation) : String :=
  match v.instr with
  | none => ""
  | some (id, op) => if id < 0 then "" else ": instr v" ++ toString id ++ " (" ++ op.name ++ ")"

def message (v : Violation) : String :=
  "internal compiler error: handler " ++ Text.quoted v.function ++ v.blockText ++ v.instrText
    ++ ": " ++ v.reason.message

end Violation

namespace Graph

/-- The violation of a graph at a block and, maybe, an instruction. -/
def violation (g : Graph) (id : BlockId) (i : Option Instr) (why : Reason) : Violation :=
  { function := g.name, block := id, blockName := g.blockName id
    instr := i.map (fun i => (i.id, i.op)), reason := why }

end Graph

end FlowGraph
