/-!
LLVM modules, as far as the lowering of graphs needs them: functions over
64-bit integers, with comparisons in one bit. A value computed by an
instruction is held in a register of its function. Blocks and functions are
named by their places, because names may repeat.
-/

namespace FlowGraph.Llvm

inductive Ty where
  | i1
  | i64
deriving DecidableEq

inductive Arith where
  | add
  | sub
  | mul
deriving DecidableEq

/-- The condition of an integer comparison. Orders are those of signed integers. -/
inductive Pred where
  | eq
  | ne
  | slt
  | sle
  | sgt
  | sge
deriving DecidableEq

/-- A value that an instruction can use. -/
inductive Value where
  | const (x : Int64)
  | param (i : Nat)
  | reg (n : Nat)
deriving DecidableEq

/-- What an instruction computes. -/
inductive Rhs where
  | arith (op : Arith) (x y : Value)
  | icmp (p : Pred) (x y : Value)
  | zext (x : Value)
  | call (callee : Nat) (args : List Value)
deriving DecidableEq

structure Instr where
  reg : Nat
  rhs : Rhs
deriving DecidableEq

/-- What ends a block. A target is the place of a block, or nothing if there was none. -/
inductive Term where
  | br (target : Option Nat)
  | condBr (c : Value) (yes no : Option Nat)
  | ret (x : Value)
deriving DecidableEq

structure Block where
  -- a block with an empty name is numbered
  name : String
  code : List Instr := []
  term : Option Term := none
deriving DecidableEq

/-- A function that takes and returns 64-bit integers. One without blocks is a declaration. -/
structure Function where
  -- a function with an empty name is numbered
  name : String
  params : Nat
  blocks : List Block := []
  -- the number of registers in use
  regs : Nat := 0
deriving DecidableEq

structure Module where
  source : String
  functions : List Function
deriving DecidableEq

namespace Function

def addBlock (f : Function) (name : String) : Function :=
  { f with blocks := f.blocks ++ [{ name := name }] }

/-- The function with an instruction put at the end of a block, in a new register. -/
def emit (f : Function) (block : Nat) (rhs : Rhs) : Function :=
  { f with
    blocks := f.blocks.modify block (fun b => { b with code := b.code ++ [⟨f.regs, rhs⟩] })
    regs := f.regs + 1 }

/-- The function with a block ended. What ended it before is replaced. -/
def terminate (f : Function) (block : Nat) (t : Term) : Function :=
  { f with blocks := f.blocks.modify block (fun b => { b with term := some t }) }

end Function

end FlowGraph.Llvm
