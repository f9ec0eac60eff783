import FlowGraph.Llvm.Module
import FlowGraph.Llvm.Name

/-!
The text of a module. Parameters, blocks without a name and instructions are
numbered in the order they are printed. A block that was never ended cannot
be printed.
-/

namespace FlowGraph.Llvm

/-! ## Numbers -/

/-- What is numbered in a function after its parameters. -/
inductive Local where
  | block (place : Nat)
  | reg (n : Nat)
deriving DecidableEq

/-- What a block has that is numbered, in order. -/
def Block.locals (place : Nat) (b : Block) : List Local :=
  (if b.name = "" then [Local.block place] else []) ++ b.code.map (fun i => .reg i.reg)

/-- What a function has that is numbered, in order. -/
def Function.locals (f : Function) : List Local :=
  f.blocks.zipIdx.flatMap (fun (b, i) => b.locals i)

def Function.numberOf (f : Function) (l : Local) : Nat := f.params + f.locals.idxOf l

/-- The name of the function at a place, or its number among those without a name. -/
def Module.functionText (m : Module) (place : Nat) : String :=
  match m.functions[place]? with
  | none => ""
  | some f =>
    if f.name ≠ "" then "@" ++ nameText f.name
    else "@" ++ toString ((m.functions.take place).countP (fun f => f.name == ""))

/-! ## Instructions -/

def Function.valueText (f : Function) : Value → String
  | .const x => intText x
  | .param i => "%" ++ toString i
  | .reg n => "%" ++ toString (f.numberOf (.reg n))

/-- A value of 64 bits with its type. -/
def Function.wideText (f : Function) (v : Value) : String := "i64 " ++ f.valueText v

/-- The target of a branch. -/
def Function.labelText (f : Function) (place : Option Nat) : String :=
  match place.bind (fun i => f.blocks[i]?.map (i, ·)) with
  | none => "<nil>"
  | some (i, b) =>
    "label %" ++ if b.name = "" then toString (f.numberOf (.block i)) else nameText b.name

def Arith.name : Arith → String
  | add => "add"
  | sub => "sub"
  | mul => "mul"

def Pred.name : Pred → String
  | eq => "eq"
  | ne => "ne"
  | slt => "slt"
  | sle => "sle"
  | sgt => "sgt"
  | sge => "sge"

def Module.rhsText (m : Module) (f : Function) : Rhs → String
  | .arith op x y => op.name ++ " i64 " ++ f.valueText x ++ ", " ++ f.valueText y
  | .icmp p x y => "icmp " ++ p.name ++ " i64 " ++ f.valueText x ++ ", " ++ f.valueText y
  | .zext x => "zext i1 " ++ f.valueText x ++ " to i64"
  | .call callee args =>
    "call i64 " ++ m.functionText callee ++ "(" ++ ", ".intercalate (args.map f.wideText) ++ ")"

def Module.instrText (m : Module) (f : Function) (i : Instr) : String :=
  "\t" ++ f.valueText (.reg i.reg) ++ " = " ++ m.rhsText f i.rhs ++ "\n"

def Function.termText (f : Function) : Term → String
  | .br t => "\tbr " ++ f.labelText t
  | .condBr c yes no =>
    "\tbr i1 " ++ f.valueText c ++ ", " ++ f.labelText yes ++ ", " ++ f.labelText no
  | .ret x => "\tret i64 " ++ f.valueText x

/-! ## Blocks and functions -/

/-- A block that was never ended: its name, and what was printed of it. -/
structure MissingTerminator where
  block : String
  lines : String
deriving DecidableEq

def MissingTerminator.message (e : MissingTerminator) : String :=
  "missing terminator in basic block " ++ Text.quoted e.block ++ ".\ncurrent instructions:\n"
    ++ e.lines

def Module.blockText (m : Module) (f : Function) (place : Nat) (b : Block) :
    Except MissingTerminator String :=
  let number := toString (f.numberOf (.block place))
  let label := if b.name = "" then number else nameText b.name
  let lines := label ++ ":\n" ++ String.join (b.code.map (m.instrText f))
  match b.term with
  | none => .error { block := if b.name = "" then number else plainName b.name, lines := lines }
  | some t => .ok (lines ++ f.termText t ++ "\n")

/-- The name and the parameters of the function at a place. -/
def Module.headText (m : Module) (place : Nat) (f : Function) : String :=
  let params := (List.range f.params).map (fun i => f.wideText (.param i))
  "i64 " ++ m.functionText place ++ "(" ++ ", ".intercalate params ++ ")"

def Module.defineText (m : Module) (place : Nat) (f : Function) :
    Except MissingTerminator String :=
  if f.blocks.isEmpty then .ok ("declare " ++ m.headText place f ++ "\n")
  else do
    let blocks ← f.blocks.zipIdx.mapM (fun (b, i) => m.blockText f i b)
    return "define " ++ m.headText place f ++ " \x7b\n" ++ "\n".intercalate blocks ++ "\x7d\n"

def Module.text (m : Module) : Except MissingTerminator String := do
  let functions ← m.functions.zipIdx.mapM (fun (f, i) => m.defineText i f)
  let source := if m.source = "" then [] else ["source_filename = " ++ quotedBytes m.source ++ "\n"]
  return "\n".intercalate (source ++ functions)

end FlowGraph.Llvm
