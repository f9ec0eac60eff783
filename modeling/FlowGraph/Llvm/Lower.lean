import FlowGraph.Llvm.Module
import FlowGraph.Llvm.Order

/-!
Lowering a program to an LLVM module. Every function is declared first, so
that calls find it whatever the order. A callee that the program does not
define becomes a declaration with as many parameters as its first call has.

Blocks keep their order, with the entry first. They are lowered in an order
where a block comes after all that dominate it, so that a value is lowered
before its uses.
-/

namespace FlowGraph

open Llvm (Value Ty)

/-! ## Parameters -/

/-- One more instruction in the count of parameters. -/
def Instr.count (n : Int64) (i : Instr) : Int64 :=
  if i.op = .arg ∧ n ≤ i.imm then i.imm + 1 else n

/-- The number of parameters that a function reads: one more than the largest
index of an argument, counted in 64 bits. -/
def Graph.arity (g : Graph) : Int64 := g.instrs.foldl Instr.count 0

/-! ## Failures -/

inductive LowerFault where
  | usedBeforeDefinition (v : ValueId)
  | argumentOutOfRange (n : Int64)
  | unsupportedCondition (c : String)
  | callArity (callee : String) (args wanted : Nat)
  | callAgain (callee : String) (args before : Nat)
  | unsupportedOperation
deriving DecidableEq

/-- Why a function cannot be lowered. -/
inductive LowerError where
  | noEntry (v : Violation)
  | instr (block : String) (id : ValueId) (op : Op) (fault : LowerFault)
  -- the lowering cannot go on: an operand or a block is missing
  | crash
deriving DecidableEq

def LowerFault.message : LowerFault → String
  | usedBeforeDefinition v => "value v" ++ toString v ++ " used before definition"
  | argumentOutOfRange n => "argument " ++ toString n.toInt ++ " out of range"
  | unsupportedCondition c => "unsupported condition " ++ Text.quoted c
  | callArity f n m => "call " ++ f ++ ": " ++ toString n ++ " args, want " ++ toString m
  | callAgain f n m =>
    "call " ++ f ++ ": " ++ toString n ++ " args, previously called with " ++ toString m
  | unsupportedOperation => "unsupported operation"

def LowerError.message : LowerError → String
  | noEntry v => v.message
  | instr b i op f =>
    "block " ++ b ++ ": v" ++ toString i ++ " (" ++ op.name ++ "): " ++ f.message
  | crash => ""

namespace Lower

/-! ## State -/

/-- The functions of the module so far, and the places of the program's own
functions and of the others by name. -/
structure Symbols where
  functions : List Llvm.Function
  -- the program's functions by name, the last of a name first
  defined : List (String × Nat)
  -- the callees that the program does not define
  externs : List (String × Nat) := []

/-- A function being lowered. -/
structure Frame where
  function : Llvm.Function
  -- the places of the blocks, the last of a number first
  blocks : List (BlockId × Nat) := []
  -- the values so far with their types, the last of a number first
  values : List (ValueId × Value × Ty) := []

/-- Why lowering stops at an instruction: a fault of the instruction, or a crash. -/
inductive Stop where
  | fault (f : LowerFault)
  | crash
deriving DecidableEq

/-! ## Values -/

/-- The frame with an instruction added, and the register it fills. -/
def Frame.emit (f : Frame) (block : Nat) (rhs : Llvm.Rhs) : Frame × Value :=
  ({ f with function := f.function.emit block rhs }, .reg f.function.regs)

/-- The value in 64 bits. A single bit is widened first. -/
def Frame.widen (f : Frame) (block : Nat) : Value × Ty → Frame × Value
  | (x, .i64) => (f, x)
  | (x, .i1) => f.emit block (.zext x)

/-- The values in 64 bits, in order. -/
def Frame.widenAll (f : Frame) (block : Nat) : List (Value × Ty) → Frame × List Value
  | [] => (f, [])
  | x :: xs =>
    let (f, x) := f.widen block x
    let (f, xs) := f.widenAll block xs
    (f, x :: xs)

/-- The value as a single bit. A wide one is compared with zero. -/
def Frame.narrow (f : Frame) (block : Nat) : Value × Ty → Frame × Value
  | (x, .i1) => (f, x)
  | (x, .i64) => f.emit block (.icmp .ne x (.const 0))

/-- The values that the operands name. -/
def Frame.operands (f : Frame) (vs : List ValueId) : Except LowerFault (List (Value × Ty)) :=
  vs.mapM fun v =>
    match f.values.lookup v with
    | some x => .ok x
    | none => .error (.usedBeforeDefinition v)

/-- The frame with a value for the result of an instruction. -/
def Frame.define (f : Frame) (id : ValueId) (x : Value) (t : Ty) : Frame :=
  { f with values := (id, x, t) :: f.values }

/-! ## Calls -/

/-- The place of a callee with so many arguments. A callee that is not known
becomes a declaration. -/
def Symbols.callee (s : Symbols) (name : String) (args : Nat) :
    Except LowerFault (Symbols × Nat) :=
  let paramsAt (i : Nat) : Nat := ((s.functions[i]?).map (·.params)).getD 0
  match s.defined.lookup name with
  | some i => if paramsAt i = args then .ok (s, i) else .error (.callArity name args (paramsAt i))
  | none =>
    match s.externs.lookup name with
    | some i =>
      if paramsAt i = args then .ok (s, i) else .error (.callAgain name args (paramsAt i))
    | none =>
      let i := s.functions.length
      .ok ({ s with
        functions := s.functions ++ [{ name := name, params := args }]
        externs := (name, i) :: s.externs }, i)

/-! ## Instructions -/

def predOf : Cond → Llvm.Pred
  | .eq => .eq
  | .ne => .ne
  | .lt => .slt
  | .le => .sle
  | .gt => .sgt
  | .ge => .sge

/-- Lowers an operation on the first two of the values. -/
def Frame.lowerBinary (f : Frame) (block : Nat) (id : ValueId) (t : Ty)
    (rhs : Value → Value → Llvm.Rhs) : List (Value × Ty) → Except Stop Frame
  | x :: y :: _ =>
    let (f, x) := f.widen block x
    let (f, y) := f.widen block y
    let (f, r) := f.emit block (rhs x y)
    .ok (f.define id r t)
  | _ => .error .crash

/-- Lowers an instruction into the block at a place. -/
def lowerInstr (s : Symbols) (f : Frame) (block : Nat) (i : Instr) :
    Except Stop (Symbols × Frame) :=
  match f.operands i.values with
  | .error e => .error (.fault e)
  | .ok xs =>
    match i.op with
    | .const => .ok (s, f.define i.id (.const i.imm) .i64)
    | .arg =>
      if i.imm < 0 ∨ (f.function.params : Int) ≤ i.imm.toInt then
        .error (.fault (.argumentOutOfRange i.imm))
      else .ok (s, f.define i.id (.param i.imm.toInt.toNat) .i64)
    | .add => (f.lowerBinary block i.id .i64 (.arith .add) xs).map (s, ·)
    | .sub => (f.lowerBinary block i.id .i64 (.arith .sub) xs).map (s, ·)
    | .mul => (f.lowerBinary block i.id .i64 (.arith .mul) xs).map (s, ·)
    | .cmp =>
      match Cond.ofName? i.cond with
      | none => .error (.fault (.unsupportedCondition i.cond))
      | some c => (f.lowerBinary block i.id .i1 (.icmp (predOf c)) xs).map (s, ·)
    | .call =>
      match s.callee i.sym xs.length with
      | .error e => .error (.fault e)
      | .ok (s, callee) =>
        let (f, xs) := f.widenAll block xs
        let (f, r) := f.emit block (.call callee xs)
        .ok (s, f.define i.id r .i64)
    | .br =>
      match i.args with
      | [] => .error .crash
      | t :: _ =>
        .ok (s, { f with function := f.function.terminate block (.br (f.blocks.lookup t.blockOrZero)) })
    | .brif =>
      match xs, i.args with
      | c :: _, _ :: yes :: no :: _ =>
        let (f, c) := f.narrow block c
        let term := .condBr c (f.blocks.lookup yes.blockOrZero) (f.blocks.lookup no.blockOrZero)
        .ok (s, { f with function := f.function.terminate block term })
      | _, _ => .error .crash
    | .ret =>
      match xs with
      | [] => .ok (s, { f with function := f.function.terminate block (.ret (.const 0)) })
      | x :: _ =>
        let (f, x) := f.widen block x
        .ok (s, { f with function := f.function.terminate block (.ret x) })
    | .unknown _ => .error (.fault .unsupportedOperation)

/-! ## Functions -/

def lowerCode (block : Nat) (name : String) :
    List Instr → Symbols × Frame → Except LowerError (Symbols × Frame)
  | [], s => .ok s
  | i :: rest, (s, f) =>
    match lowerInstr s f block i with
    | .error .crash => .error .crash
    | .error (.fault e) => .error (.instr name i.id i.op e)
    | .ok s => lowerCode block name rest s

def lowerBlocks : List (Option Block) → Symbols × Frame → Except LowerError (Symbols × Frame)
  | [], s => .ok s
  | none :: _, _ => .error .crash
  | some b :: rest, (s, f) =>
    match f.blocks.lookup b.id with
    | none => .error .crash
    | some place =>
      match lowerCode place b.name b.code (s, f) with
      | .error e => .error e
      | .ok s => lowerBlocks rest s

/-- The frame with a block added for a block of the graph. -/
def Frame.addBlock (f : Frame) (b : Block) : Frame :=
  { f with
    function := f.function.addBlock b.name
    blocks := (b.id, f.function.blocks.length) :: f.blocks }

/-- The name of the block put in front of an entry that is branched to. -/
def prologueName : String := ".entry"

/-- The frame with the blocks of a graph: the entry first, then the others in
order. No branch may lead to the first block of a function, so an entry that
is branched to gets a block in front of it. -/
def openFrame (function : Llvm.Function) (g : Graph) (entry : Block) : Frame :=
  let first := function.blocks.length
  let branchedTo := !(g.predecessors entry.id).isEmpty
  let function := if branchedTo then function.addBlock prologueName else function
  let f := Frame.addBlock { function := function } entry
  let f := (g.blocks.filter (fun b => b.id ≠ entry.id)).foldl Frame.addBlock f
  if branchedTo then
    { f with function := f.function.terminate first (.br (f.blocks.lookup entry.id)) }
  else f

/-- Lowers a graph into the function at a place. -/
def lowerGraph (s : Symbols) (place : Nat) (g : Graph) : Except LowerError Symbols :=
  match g.entryBlock?, g.entry, s.functions[place]? with
  | some entry, some id, some function =>
    match g.lowerOrder? id with
    | none => .error .crash
    | some order =>
      match lowerBlocks order (s, openFrame function g entry) with
      | .error e => .error e
      | .ok (s, f) => .ok { s with functions := s.functions.set place f.function }
  | _, _, _ => .error (.noEntry (g.violation (g.entry.getD noBlock) none .noEntryBlock))

/-! ## Programs -/

/-- The most parameters that a function can be laid out with. -/
def maxParams : Nat := Nat.pow 2 45

/-- The declaration of a graph, unless it has no possible number of parameters. -/
def declare? (g : Graph) : Option Llvm.Function :=
  let n := g.arity.toInt
  if n < 0 ∨ n > maxParams then none else some { name := g.name, params := n.toNat }

/-- Lowers the graphs of a list, each into the last function of its name. -/
def lowerAll : List Graph → Symbols → Except (String × LowerError) Symbols
  | [], s => .ok s
  | g :: gs, s =>
    match s.defined.lookup g.name with
    | none => .error (g.name, .crash)
    | some place =>
      match lowerGraph s place g with
      | .error e => .error (g.name, e)
      | .ok s => lowerAll gs s

end Lower

/-- The module of a program, or the function that cannot be lowered and why. -/
def Program.lower (p : Program) : Except (String × LowerError) Llvm.Module :=
  match p.functions.mapM Lower.declare? with
  | none => .error ("", .crash)
  | some fs =>
    let names := fs.zipIdx.map (fun (f, i) => (f.name, i))
    (Lower.lowerAll p.functions { functions := fs, defined := names.reverse }).map
      fun s => { source := p.path, functions := s.functions }

end FlowGraph
