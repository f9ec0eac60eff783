import FlowGraph.Op

/-!
Instructions and their operands. An instruction names values and blocks by
number. The edges of the graph are the block operands of the instructions
that end a block, so redirecting an edge is a change of one operand.
-/

namespace FlowGraph

/-- The number of a block in its graph. Only numbers from zero up are given
out; a text or an edit may name any number. -/
abbrev BlockId := Int

/-- The number of a value, which is the number of the instruction that gives it. -/
abbrev ValueId := Int

/-- The number that stands for no block. -/
def noBlock : BlockId := -1

/-! ## Operands -/

/-- An operand of an instruction: a value, a block, or something of an unknown
kind, which is kept so that it can be reported. -/
inductive Operand where
  | value (v : ValueId)
  | block (b : BlockId)
  | other (kind : UInt8)
deriving DecidableEq

namespace Operand

def value? : Operand → Option ValueId
  | value v => some v
  | _ => none

def block? : Operand → Option BlockId
  | block b => some b
  | _ => none

/-- The value number held by an operand: zero unless it names a value. -/
def valueOrZero (o : Operand) : ValueId := o.value?.getD 0

/-- The block number held by an operand: zero unless it names a block. -/
def blockOrZero (o : Operand) : BlockId := o.block?.getD 0

/-- The operand of a kind with nothing set in it. -/
def ofKind (k : UInt8) : Operand :=
  if k = 0 then value 0 else if k = 1 then block 0 else other k

/-- The operand with block `old` made into block `new`. -/
def redirect (old new : BlockId) : Operand → Operand
  | block b => block (if b = old then new else b)
  | o => o

end Operand

/-! ## Instructions -/

/-- What an instruction does: its operation and all that the operation reads. -/
structure Action where
  op : Op
  args : List Operand := []
  -- the constant, or the index of the argument
  imm : Int64 := 0
  sym : String := ""
  cond : String := ""
deriving DecidableEq

namespace Action

def const (x : Int64) : Action := { op := .const, imm := x }

def arg (n : Int64) : Action := { op := .arg, imm := n }

def binary (op : Op) (x y : ValueId) : Action := { op := op, args := [.value x, .value y] }

def cmp (c : String) (x y : ValueId) : Action :=
  { op := .cmp, args := [.value x, .value y], cond := c }

def call (f : String) (vs : List ValueId) : Action :=
  { op := .call, args := vs.map .value, sym := f }

def br (b : BlockId) : Action := { op := .br, args := [.block b] }

/-- A branch to the first block if the value is not zero, else to the second. -/
def brif (c : ValueId) (yes no : BlockId) : Action :=
  { op := .brif, args := [.value c, .block yes, .block no] }

def ret (vs : List ValueId) : Action := { op := .ret, args := vs.map .value }

def targets (a : Action) : List BlockId := a.args.filterMap Operand.block?

def values (a : Action) : List ValueId := a.args.filterMap Operand.value?

def isTerminator (a : Action) : Bool := a.op.isTerminator

/-- The action with every block operand `old` made into `new`. -/
def redirect (old new : BlockId) (a : Action) : Action :=
  { a with args := a.args.map (Operand.redirect old new) }

/-- How many operands a redirection of `old` changes. -/
def countTarget (old : BlockId) (a : Action) : Nat := a.targets.count old

end Action

/-- An instruction: an action with its number and the block it says it is in. -/
structure Instr extends Action where
  id : ValueId
  block : BlockId
deriving DecidableEq

namespace Instr

def redirect (old new : BlockId) (i : Instr) : Instr :=
  { i with toAction := i.toAction.redirect old new }

end Instr

end FlowGraph
