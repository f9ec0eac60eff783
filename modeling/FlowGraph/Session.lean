import FlowGraph.Pipeline

/-!
A program under edit. Every block that was ever made keeps a handle: its place
among the blocks of its function, in the order they were made. The handle of a
removed block stands for the block as it was last, so a session can show what
became of it.

Instructions are kept in one store, and blocks hold rows of their numbers. A
block that is made into a copy of another shares its row and its instructions,
so an edit through one of the two is seen through the other.
-/

namespace FlowGraph

/-! ## Parts of a session -/

/-- A row of instructions, by their numbers. -/
structure Row where
  cells : List Nat := []
  -- how many have room in the row
  room : Nat := 0
deriving DecidableEq

/-- The row with an instruction at a place, up to which it is filled. -/
def Row.put (r : Row) (place key : Nat) : Row :=
  { r with cells := r.cells.take place ++ key :: r.cells.drop (place + 1) }

/-- A new row with the first instructions of another and one more. It has room for twice as many. -/
def Row.grow (r : Row) (length key : Nat) : Row :=
  { cells := r.cells.take length ++ [key], room := max 1 (2 * r.room) }

/-- A block under edit. -/
structure Page where
  id : BlockId
  name : String
  -- the row that its code stands in
  row : Option Nat := none
  length : Nat := 0
  -- the place of the function that it says it belongs to
  owner : Option Nat
  live : Bool := true
deriving DecidableEq

/-- A function under edit. -/
structure Sheet where
  name : String
  -- the blocks, by handle
  pages : List Page := []
  -- the live blocks, in the order they were made
  order : List BlockId := []
  entry : Option BlockId := none
  nextValue : ValueId := 0
deriving DecidableEq

/-- The block of a handle, live or removed. -/
def Sheet.page? (t : Sheet) (handle : Int) : Option Page :=
  if handle < 0 then none else t.pages[handle.toNat]?

/-- A program under edit. -/
structure Session where
  path : String := ""
  instrs : List Instr := []
  rows : List Row := []
  sheets : List Sheet := []
deriving DecidableEq

namespace Session

/-! ## What a session shows -/

/-- The row of a block. A block without code has an empty one. -/
def rowOf (s : Session) (p : Page) : Row := (p.row.bind (s.rows[·]?)).getD {}

def keysOf (s : Session) (p : Page) : List Nat := (s.rowOf p).cells.take p.length

def codeOf (s : Session) (p : Page) : List Instr := (s.keysOf p).filterMap (s.instrs[·]?)

/-- The block of a handle of the function at a place. -/
def page? (s : Session) (place : Nat) (handle : Int) : Option Page :=
  (s.sheets[place]?).bind (fun t => t.page? handle)

/-- The owner of a block, as the function at a place sees it. -/
def ownerOf (s : Session) (place : Nat) (p : Page) : Owner :=
  match p.owner with
  | none => .released
  | some o =>
    if o = place then .holder
    else
      let known := (s.page? o p.id).filter (·.live)
      .other (((s.sheets[o]?).map (·.name)).getD "") ((known.map (·.name)).getD "")

/-- A block as the function at a place sees it. -/
def blockOf (s : Session) (place : Nat) (p : Page) : Block :=
  { id := p.id, name := p.name, code := s.codeOf p, owner := s.ownerOf place p }

/-- The block of a handle, live or removed. -/
def block? (s : Session) (place : Nat) (handle : Int) : Option Block :=
  (s.page? place handle).map (s.blockOf place)

/-- The graph of a function at a place. -/
def graphOf (s : Session) (place : Nat) (t : Sheet) : Graph where
  name := t.name
  slots := t.pages.map (fun p => if p.live then some (s.blockOf place p) else none)
  order := t.order
  entry := t.entry
  nextValue := t.nextValue

def graph (s : Session) (place : Nat) : Graph :=
  ((s.sheets[place]?).map (s.graphOf place)).getD { name := "" }

def program (s : Session) : Program :=
  { path := s.path, functions := s.sheets.mapIdx s.graphOf }

def place? (s : Session) (name : String) : Option Nat :=
  s.sheets.findIdx? (fun t => t.name == name)

/-! ## Code -/

/-- The session with an instruction at the end of a block, and the block. The
instruction goes into the row of the block while there is room. -/
def putInstr (s : Session) (p : Page) (i : Instr) : Session × Page :=
  let key := s.instrs.length
  let row := s.rowOf p
  let s := { s with instrs := s.instrs ++ [i] }
  match p.row with
  | some r =>
    if p.length < row.room then
      ({ s with rows := s.rows.set r (row.put p.length key) }, { p with length := p.length + 1 })
    else inNewRow s row key
  | none => inNewRow s row key
where
  /-- The instruction in a new row. -/
  inNewRow (s : Session) (row : Row) (key : Nat) : Session × Page :=
    ({ s with rows := s.rows ++ [row.grow p.length key] },
      { p with row := some s.rows.length, length := p.length + 1 })

/-- The session with instructions put at the end of a block, in order. -/
def putCode (s : Session) (p : Page) (code : List Instr) : Session × Page :=
  code.foldl (fun (s, p) i => s.putInstr p i) (s, p)

/-! ## Programs -/

/-- The session with a function added, block by block. -/
def addGraph (s : Session) (g : Graph) : Session :=
  let place := s.sheets.length
  let made := g.slots.foldl
    (fun (s, pages) slot =>
      match slot with
      | none => (s, pages ++ [{ id := noBlock, name := "", owner := none, live := false }])
      | some b =>
        let (s, p) := s.putCode { id := b.id, name := b.name, owner := some place } b.code
        (s, pages ++ [p]))
    (s, ([] : List Page))
  let t : Sheet :=
    { name := g.name, pages := made.2, order := g.order, entry := g.entry, nextValue := g.nextValue }
  { made.1 with sheets := made.1.sheets ++ [t] }

def ofProgram (p : Program) : Session := p.functions.foldl addGraph { path := p.path }

/-- The session with a function added that has no blocks. -/
def addFunction (s : Session) (name : String) : Session := s.addGraph { name := name }

end Session

end FlowGraph
