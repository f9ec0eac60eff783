import FlowGraph.Instr

/-!
The control-flow graph of one function: numbered slots of blocks, the order
of the live blocks, the entry, and the next value number. A removed block
leaves an empty slot, so a block number is given out once.
-/

namespace FlowGraph

/-! ## Blocks -/

/-- Whom a block says it belongs to. -/
inductive Owner where
  | holder
  -- no graph: the block was removed
  | released
  -- another function, by its name and by the name that its block of this number has
  | other (function blockName : String)
deriving DecidableEq

/-- A basic block: a name and its instructions in order. -/
structure Block where
  -- the number the block says it has
  id : BlockId
  name : String
  code : List Instr := []
  -- whom the block says it belongs to
  owner : Owner := .holder
deriving DecidableEq

namespace Block

/-- The last instruction if it ends a block. -/
def terminator? (b : Block) : Option Instr := b.code.getLast?.filter (·.isTerminator)

/-- The blocks that the terminator names, in order. -/
def targets (b : Block) : List BlockId := (b.terminator?.map (·.targets)).getD []

/-- The name and number of a block, as messages show it. -/
def label (b : Block) : String := b.name ++ "#" ++ toString b.id

/-- The block with every block operand `old` of its terminator made into `new`. -/
def redirectTerminator (old new : BlockId) (b : Block) : Block :=
  match b.code.getLast? with
  | some i =>
    if i.isTerminator then { b with code := b.code.dropLast ++ [i.redirect old new] } else b
  | none => b

end Block

/-! ## Graphs -/

/-- The control-flow graph of a function. -/
structure Graph where
  name : String
  -- the slots: slot `i` holds block `i`, or nothing once it is removed
  slots : List (Option Block) := []
  -- the live blocks, in the order they were made
  order : List BlockId := []
  entry : Option BlockId := none
  nextValue : ValueId := 0
deriving DecidableEq

namespace Graph

/-- The number of slots: one more than the largest block number given out. -/
def cap (g : Graph) : Nat := g.slots.length

/-- The live block of that number. -/
def block? (g : Graph) (id : BlockId) : Option Block :=
  if id < 0 then none else (g.slots[id.toNat]?).join

/-- The number is that of a live block. -/
def has (g : Graph) (id : BlockId) : Bool := (g.block? id).isSome

/-- The live blocks, in order. -/
def blocks (g : Graph) : List Block := g.order.filterMap g.block?

def entryBlock? (g : Graph) : Option Block := g.entry.bind g.block?

def find? (g : Graph) (name : String) : Option Block := g.blocks.find? (fun b => b.name == name)

/-- The name of a live block, and the empty name for any other number. -/
def blockName (g : Graph) (id : BlockId) : String := ((g.block? id).map (·.name)).getD ""

/-- The graph with the live block `id` changed by `f`. -/
def modifyBlock (g : Graph) (id : BlockId) (f : Block → Block) : Graph :=
  if id < 0 then g else { g with slots := g.slots.modify id.toNat (Option.map f) }

def nextBlock (g : Graph) : BlockId := g.slots.length

/-- The graph with an empty block added at the end. A block without a name is
named after its number, and the first block becomes the entry. -/
def addBlock (g : Graph) (name : String) : Graph :=
  let id := g.nextBlock
  let name := if name = "" then "b" ++ toString id else name
  { g with
    slots := g.slots ++ [some { id := id, name := name }]
    order := g.order ++ [id]
    entry := g.entry.or (some id) }

/-- The instruction that an action becomes when it is put at the end of a block. -/
def instrFor (g : Graph) (b : Block) (a : Action) : Instr :=
  { toAction := a, id := g.nextValue, block := b.id }

/-- The graph with an action put at the end of the live block `id`. -/
def append (g : Graph) (id : BlockId) (a : Action) : Graph :=
  if g.has id then
    { g.modifyBlock id (fun b => { b with code := b.code ++ [g.instrFor b a] }) with
      nextValue := g.nextValue + 1 }
  else g

end Graph

/-! ## Programs -/

/-- A program: the path it was read from and its functions, in order. -/
structure Program where
  path : String := ""
  functions : List Graph := []
deriving DecidableEq

namespace Program

def find? (p : Program) (name : String) : Option Graph :=
  p.functions.find? (fun g => g.name == name)

end Program

end FlowGraph
