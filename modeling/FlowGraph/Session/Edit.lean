import FlowGraph.Session

/-!
Edits of a program in a session: new blocks, new instructions, changes of
what is there, and blocks made into copies of others.
-/

namespace FlowGraph.Session

/-! ## Functions -/

def modifySheet (s : Session) (place : Nat) (f : Sheet → Sheet) : Session :=
  { s with sheets := s.sheets.modify place f }

def modifyPage (s : Session) (place : Nat) (handle : Int) (f : Page → Page) : Session :=
  if handle < 0 then s
  else s.modifySheet place (fun t => { t with pages := t.pages.modify handle.toNat f })

def addBlock (s : Session) (place : Nat) (name : String) : Session :=
  let g := s.graph place
  let made := g.addBlock name
  let page : Page :=
    { id := g.nextBlock, name := made.blockName g.nextBlock, owner := some place }
  s.modifySheet place (fun t =>
    { t with pages := t.pages ++ [page], order := made.order, entry := made.entry })

/-- The session with the entry of a function moved to a live block. -/
def setEntry (s : Session) (place : Nat) (id : BlockId) : Except Violation Session :=
  ((s.graph place).setEntry id).map (fun g =>
    s.modifySheet place (fun t => { t with entry := g.entry }))

/-- The session with a block released by its function. -/
def release (s : Session) (place : Nat) (id : BlockId) : Session :=
  s.modifyPage place id (fun p => { p with owner := none, live := false })

/-- The session without a block of a function, if it may be removed. -/
def remove (s : Session) (place : Nat) (id : BlockId) : Except Violation Session :=
  ((s.graph place).removeBlock id).map (fun g =>
    (s.release place id).modifySheet place (fun t => { t with order := g.order }))

/-! ## Blocks -/

/-- The session with an action put at the end of a block, and the instruction it
became. The owner of the block numbers it, so a block without one takes none. -/
def append? (s : Session) (place : Nat) (handle : Int) (a : Action) : Option (Session × Instr) := do
  let p ← s.page? place handle
  let owner ← p.owner
  let numbering ← s.sheets[owner]?
  let i : Instr := { toAction := a, id := numbering.nextValue, block := p.id }
  let (s, p) := s.putInstr p i
  let s := s.modifyPage place handle (fun _ => p)
  return (s.modifySheet owner (fun t => { t with nextValue := t.nextValue + 1 }), i)

/-- The session with the last instruction of a block taken off. The block keeps its row. -/
def pop (s : Session) (place : Nat) (handle : Int) : Session :=
  s.modifyPage place handle (fun p => { p with length := p.length - 1 })

def clear (s : Session) (place : Nat) (handle : Int) : Session :=
  s.modifyPage place handle (fun p => { p with row := none, length := 0 })

def renumber (s : Session) (place : Nat) (handle : Int) (id : BlockId) : Session :=
  s.modifyPage place handle (fun p => { p with id := id })

def rename (s : Session) (place : Nat) (handle : Int) (name : String) : Session :=
  s.modifyPage place handle (fun p => { p with name := name })

/-- The session with a block made into a copy of another. The copy has the number,
the name and the owner of the other and shares its code. -/
def copyBlock? (s : Session) (place : Nat) (handle : Int) (source : Nat) (other : Int) :
    Option Session := do
  let p ← s.page? source other
  return s.modifyPage place handle (fun old => { p with live := old.live })

/-- What is wrong with a block by itself. -/
def blockFault? (s : Session) (place : Nat) (b : Block) : Option Violation :=
  (s.graph place).blockViolation? b

def modifyInstr (s : Session) (place : Nat) (handle : Int) (i : Nat) (f : Instr → Instr) :
    Session :=
  match (s.page? place handle).bind (fun p => (s.keysOf p)[i]?) with
  | none => s
  | some key => { s with instrs := s.instrs.modify key f }

end FlowGraph.Session
