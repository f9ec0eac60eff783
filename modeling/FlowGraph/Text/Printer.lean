import FlowGraph.Graph

/-!
Printing a program, in the form that reading takes. Values are named after
their numbers and blocks by their labels. The entry is named in the header
when it is not the first block.
-/

namespace FlowGraph.Text

/-- What cannot be printed in an instruction. -/
inductive PrintFault where
  | unset (instr : ValueId)
  | dangling (instr : ValueId) (block : BlockId)
  | operandKind (instr : ValueId) (kind : UInt8)
deriving DecidableEq

/-- Why a graph cannot be printed: the block and what is in it. -/
structure PrintError where
  block : String
  fault : PrintFault
deriving DecidableEq

def PrintFault.message : PrintFault → String
  | unset i => "invalid instruction v" ++ toString i
  | dangling i b => "v" ++ toString i ++ ": dangling block operand #" ++ toString b
  | operandKind i k => "v" ++ toString i ++ ": unsupported operand kind " ++ toString k.toNat

def PrintError.message (e : PrintError) : String := "block " ++ e.block ++ ": " ++ e.fault.message

/-- The text of an operand, with the blank before it. -/
def printOperand (g : Graph) (i : Instr) : Operand → Except PrintFault String
  | .value v => .ok (" v" ++ toString v)
  | .block b =>
    match g.block? b with
    | some blk => .ok (" " ++ blk.name)
    | none => .error (.dangling i.id b)
  | .other k => .error (.operandKind i.id k)

/-- What stands between the operation and the operands, with the blank before it. -/
def printDetail (i : Instr) : Except PrintFault String :=
  match i.op with
  | .const | .arg => .ok (" " ++ toString i.imm.toInt)
  | .cmp => .ok (" " ++ i.cond)
  | .call => .ok (" " ++ i.sym)
  | .unknown 0 => .error (.unset i.id)
  | _ => .ok ""

def printInstr (g : Graph) (i : Instr) : Except PrintFault String := do
  let result := if i.op.defines then "v" ++ toString i.id ++ " = " else ""
  let detail ← printDetail i
  let operands ← i.args.mapM (printOperand g i)
  return "\t" ++ result ++ i.op.name ++ detail ++ String.join operands ++ "\n"

def printBlock (g : Graph) (b : Block) : Except PrintError String :=
  match b.code.mapM (printInstr g) with
  | .error f => .error { block := b.name, fault := f }
  | .ok lines => .ok (b.name ++ ":\n" ++ String.join lines)

/-- The part of a header that names the entry: none if it is the first block. -/
def printEntry (g : Graph) : String :=
  match g.entryBlock? with
  | none => ""
  | some e => if g.order.isEmpty ∨ g.order.head? = g.entry then "" else " entry " ++ e.name

def printGraph (g : Graph) : Except PrintError String := do
  let blocks ← g.blocks.mapM (printBlock g)
  return "func " ++ g.name ++ printEntry g ++ " \x7b\n" ++ String.join blocks ++ "\x7d\n"

/-- The text of a list of functions, with a blank line between them, or the
name of the first that cannot be printed. -/
def printFunctions (gs : List Graph) : Except (String × PrintError) String := do
  let texts ← gs.mapM (fun g => (printGraph g).mapError (g.name, ·))
  return "\n".intercalate texts

end FlowGraph.Text
