import FlowGraph.Session.Edit

/-!
Passes over a function of a session. A pass sees the graph of the function,
and what it does to the graph is done to the session. So what a pass does to
shared code is seen by all who share it.
-/

namespace FlowGraph

/-- A function of a session, by its place. -/
structure Focus where
  session : Session
  place : Nat

instance : HasGraph Focus := ⟨fun x => x.session.graph x.place⟩

/-! ## What a pass leaves -/

namespace Session

/-- The session with the instructions of a block changed from old ones to new ones. -/
def settleCode (s : Session) (keys : List Nat) (old new : List Instr) : Session :=
  { s with
    instrs := (keys.zip (old.zip new)).foldl
      (fun is (k, i, j) => if i = j then is else is.set k j) s.instrs }

/-- The session with a block as a pass leaves it, live or taken out. -/
def settleBlock (s : Session) (place : Nat) (handle : Int) (new : Block) (live : Bool) : Session :=
  match s.block? place handle, s.page? place handle with
  | some old, some p =>
    let s := s.settleCode (s.keysOf p) old.code new.code
    let s := if new.code.isEmpty && !old.code.isEmpty then s.clear place handle else s
    if live then s else s.release place handle
  | _, _ => s

/-- The session with the function at a place as a pass leaves it. -/
def settle (s : Session) (place : Nat) (r : PassResult Graph) : Session :=
  let blocks :=
    ((s.graph place).slots.mapIdx fun i slot =>
      slot.bind fun _ =>
        match r.state.block? i with
        | some b => some (i, b, true)
        | none => (r.removed.lookup (i : Int)).map ((i, ·, false))).filterMap id
  let s := blocks.foldl (fun s (i, b, live) => s.settleBlock place i b live) s
  s.modifySheet place (fun t => { t with order := r.state.order, entry := r.state.entry })

end Session

/-- A pass over a graph as a pass over a function of a session. -/
def Pass.onFocus (p : Pass Graph) : Pass Focus where
  name := p.name
  run := fun x =>
    let r := p.run (HasGraph.graph x)
    { state := { x with session := x.session.settle x.place r }
      changed := r.changed
      error := r.error }

/-! ## Passes to try a pipeline with -/

namespace Probe

/-- Claims a change and makes none. -/
def always : Pass Focus := { name := "test:always", run := fun x => { state := x, changed := true } }

/-- Claims no change. -/
def never : Pass Focus := { name := "test:never", run := fun x => { state := x } }

/-- Puts a constant after the end of the entry block. -/
def breaker : Pass Focus where
  name := "test:breaker"
  run := fun x =>
    let g := HasGraph.graph x
    match (g.entry.filter g.has).bind (fun e => x.session.append? x.place e (.const 1)) with
    | none => { state := x, error := some .crash }
    | some (s, _) => { state := { x with session := s }, changed := true }

def fail : Pass Focus where
  name := "test:fail"
  run := fun x => { state := x, changed := true, error := some (.own "test pass failed") }

/-- Adds a block that branches to the entry. -/
def grow : Pass Focus where
  name := "test:grow"
  run := fun x =>
    let id := (HasGraph.graph x).nextBlock
    let s := x.session.addBlock x.place ""
    let entry := ((s.graph x.place).entry).getD noBlock
    match s.append? x.place id (.br entry) with
    | none => { state := x, error := some .crash }
    | some (s, _) => { state := { x with session := s }, changed := true }

/-- All of them. None can be named in settings. -/
def all : List (Pass Focus) := [always, never, breaker, fail, grow]

end Probe

/-- The pass of a name, registered or to try a pipeline with. -/
def sessionPass? (name : String) : Option (Pass Focus) :=
  (registeredPasses.map Pass.onFocus ++ Probe.all).find? (fun p => p.name == name)

/-! ## Runs -/

/-- A run of a pipeline over the functions of a session. -/
structure SessionRun where
  session : Session
  -- a run that did not fail changed its function
  changed : Bool := false
  error : Option (String × PipelineError) := none

/-- The run of a pipeline over the functions at some places, in order. The first
failure ends it. -/
def Session.runOver (p : Pipeline Focus) : List Nat → Session → SessionRun
  | [], s => { session := s }
  | place :: rest, s =>
    let r := p.run { session := s, place := place }
    match r.error with
    | some e =>
      { session := r.state.session, error := some ((s.graph place).name, e) }
    | none =>
      let later := Session.runOver p rest r.state.session
      { later with changed := r.changed || later.changed }

def Session.runAll (s : Session) (p : Pipeline Focus) : SessionRun :=
  Session.runOver p (List.range s.sheets.length) s

end FlowGraph
