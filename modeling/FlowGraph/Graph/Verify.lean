import FlowGraph.Graph.Edges

/-!
When a graph is well formed. The order lists live slots once each, the entry
is one of them, every block ends in its only terminator, every instruction
says it is in its block and has operands that fit its operation, and no edge
leads out of the order. The first fault found is the one reported.
-/

namespace FlowGraph

/-! ## One block -/

/-- The fault of a block taken by itself: it is empty, it has a terminator
before its end, or it has none at its end. The instruction at fault comes with it. -/
def Block.fault? (b : Block) : Option (Option Instr × Reason) :=
  match b.code.getLast? with
  | none => some (none, .noInstructions)
  | some last =>
    match b.code.dropLast.find? (·.isTerminator) with
    | some i => some (some i, .earlyTerminator)
    | none => if last.isTerminator then none else some (some last, .missingTerminator)

/-- The number of values and blocks among the operands, or the first kind that is neither. -/
def Action.countOperands (a : Action) : Except UInt8 (Nat × Nat) :=
  a.args.foldlM (fun (v, b) o =>
    match o with
    | .value _ => .ok (v + 1, b)
    | .block _ => .ok (v, b + 1)
    | .other k => .error k) (0, 0)

/-- The operands fit the way the operation ends a block: a jump has one block,
a branch a value and two blocks, a return at most one value, and all else no block. -/
def Action.operandsFit (a : Action) (values blocks : Nat) : Bool :=
  match a.op.ending with
  | some .jump => values == 0 && blocks == 1
  | some .branch =>
    a.args.length == 3 && (a.args.head?.bind Operand.value?).isSome && blocks == 2
  | some .leave => values ≤ 1 && blocks == 0
  | none => blocks == 0

/-- The fault of an action by itself: an unknown operation or operands that do not fit. -/
def Action.fault? (a : Action) : Option Reason :=
  if !a.op.isKnown then some .unknownOperation
  else match a.countOperands with
    | .error k => some (.unknownOperand k)
    | .ok (v, b) => if a.operandsFit v b then none else some (.malformedOperands v b)

namespace Graph

/-- The violation of a block by itself, told by the function that owns the block. -/
def blockViolation? (g : Graph) (b : Block) : Option Violation :=
  b.fault?.map (fun (i, why) =>
    let told := g.violation b.id i why
    match b.owner with
    | .holder => told
    | .released => { told with function := "", blockName := "" }
    | .other f name => { told with function := f, blockName := name })

/-- The first block that is malformed by itself, in order. -/
def malformedBlock? (g : Graph) : Option Violation := g.blocks.findSome? g.blockViolation?

/-! ## The whole graph -/

/-- The first fault of the order: a slot that is empty or holds a block of
another number, or a number that came before. -/
def orderFault? (g : Graph) : List BlockId → List BlockId → Option Violation
  | _, [] => none
  | seen, id :: rest =>
    if (g.block? id).map (·.id) ≠ some id then some (g.violation id none .releasedSlot)
    else if seen.contains id then some (g.violation id none .listedTwice)
    else orderFault? g (id :: seen) rest

/-- The fault of an instruction in block `id`. -/
def instrFault? (g : Graph) (id : BlockId) (i : Instr) : Option Violation :=
  let told := g.violation id (some i)
  if i.block ≠ id then some (told (.strayInstruction i.block))
  else match i.fault? with
    | some why => some (told why)
    | none => (i.targets.find? (fun t => !g.order.contains t)).map (fun t => told (.danglingEdge t))

/-- The fault of the live block `id` and of all in it. -/
def liveFault? (g : Graph) (id : BlockId) : Option Violation :=
  (g.block? id).bind fun b =>
    if b.owner ≠ .holder then some (g.violation id none .foreignOwner)
    else (g.blockViolation? b).or (b.code.findSome? (g.instrFault? id))

/-- The first violation of a graph, if it is not well formed. -/
def fault? (g : Graph) : Option Violation :=
  if g.order.isEmpty then some (g.violation noBlock none .noBlocks)
  else match g.orderFault? [] g.order with
    | some v => some v
    | none =>
      if (g.entry.filter g.order.contains).isNone then
        some (g.violation (g.entry.getD noBlock) none .entryNotLive)
      else g.order.findSome? g.liveFault?

end Graph

end FlowGraph
