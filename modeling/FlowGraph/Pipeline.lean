import FlowGraph.Pass.EmptyBlocks
import FlowGraph.Pass.Unreachable

/-!
A pipeline runs its passes over a graph, round after round, until a round
changes nothing or the rounds run out. It checks the graph before the first
pass and after each pass, if asked to. Passes may also run over something
that has a graph, and then its graph is the one checked.
-/

namespace FlowGraph

/-- What a pipeline can run over: it has a graph. -/
class HasGraph (σ : Type) where
  graph : σ → Graph

instance : HasGraph Graph := ⟨id⟩

/-! ## Pipelines -/

/-- What to do with a graph when the rounds run out. -/
inductive Policy where
  | reject
  | emit
deriving DecidableEq

def Policy.name : Policy → String
  | reject => "reject"
  | emit => "emit"

def Policy.ofName? (s : String) : Option Policy := [reject, emit].find? (fun p => p.name == s)

/-- A list of passes and how to run them. -/
structure Pipeline (σ : Type) where
  passes : List (Pass σ)
  -- a number below one stands for the usual limit
  maxRounds : Int
  onLimit : Policy
  -- check the graph before the first pass and after each pass
  verify : Bool

def defaultMaxRounds : Nat := 64

/-- The limit of rounds in force. -/
def Pipeline.roundLimit {σ : Type} (p : Pipeline σ) : Nat :=
  if p.maxRounds ≤ 0 then defaultMaxRounds else p.maxRounds.toNat

/-- The passes that a pipeline can be made of by name, in the order of their names. -/
def registeredPasses : List (Pass Graph) := [emptyBlockElimination, unreachableBlockElimination]

def registeredPass? (name : String) : Option (Pass Graph) :=
  registeredPasses.find? (fun p => p.name == name)

/-! ## Failures -/

inductive PipelineError where
  | input (v : Violation)
  | pass (round : Nat) (name : String) (e : PassError)
  | after (round : Nat) (name : String) (v : Violation)
  | noFixpoint (function : String) (rounds : Nat)
deriving DecidableEq

def PipelineError.message : PipelineError → String
  | input v => "verify input: " ++ v.message
  | pass r n e => "round " ++ toString r ++ ": pass " ++ n ++ ": " ++ e.message
  | after r n v => "round " ++ toString r ++ ": verify after " ++ n ++ ": " ++ v.message
  | noFixpoint f r =>
    "handler " ++ f ++ ": " ++ toString r ++ " rounds: optimizer did not converge"

/-! ## Runs -/

/-- A round under way, or the run as it stood when a round failed. -/
structure Round (σ : Type) where
  state : σ
  progress : Bool := false
  calls : Nat := 0
  error : Option PipelineError := none

/-- What a run of a pipeline gives back. -/
structure Run (σ : Type) where
  state : σ
  -- a round before the last one run changed the graph
  changed : Bool := false
  calls : Nat := 0
  error : Option PipelineError := none

namespace Pipeline

variable {σ : Type} [HasGraph σ]

/-- The fault that a check finds, if checks are made. -/
def faultAt (p : Pipeline σ) (x : σ) : Option Violation :=
  if p.verify then (HasGraph.graph x).fault? else none

/-- The round after one more pass. A failed round stays as it is. -/
def step (p : Pipeline σ) (round : Nat) (s : Round σ) (pass : Pass σ) : Round σ :=
  if s.error.isSome then s
  else
    let r := pass.run s.state
    let s := { s with state := r.state, calls := s.calls + 1 }
    match r.error with
    | some e => { s with error := some (.pass round pass.name e) }
    | none =>
      match p.faultAt r.state with
      | some v => { s with error := some (.after round pass.name v) }
      | none => { s with progress := s.progress || r.changed }

def round (p : Pipeline σ) (n : Nat) (x : σ) : Round σ :=
  p.passes.foldl (p.step n) { state := x }

/-- What is left to run, with the rounds that are left and the number of the next. -/
def rounds (p : Pipeline σ) : Nat → Nat → Run σ → Run σ
  | 0, _, s =>
    match p.onLimit with
    | .emit => s
    | .reject =>
      { s with error := some (.noFixpoint (HasGraph.graph s.state).name p.roundLimit) }
  | left + 1, n, s =>
    let r := p.round n s.state
    let s := { s with state := r.state, calls := s.calls + r.calls, error := r.error }
    if r.error.isSome then s
    else if r.progress then p.rounds left (n + 1) { s with changed := true }
    else s

def run (p : Pipeline σ) (x : σ) : Run σ :=
  match p.faultAt x with
  | some v => { state := x, error := some (.input v) }
  | none => p.rounds p.roundLimit 0 { state := x }

/-- How often the pass at place `i` was called, out of so many calls in all. Passes
take turns, so the earlier ones are called once more when a round stops short. -/
def callsOf (p : Pipeline σ) (calls i : Nat) : Nat :=
  calls / p.passes.length + if i < calls % p.passes.length then 1 else 0

end Pipeline

/-! ## Programs -/

/-- A run over the functions of a program: the runs, and the functions after a
failed one, which are not run. -/
structure ProgramRun where
  runs : List (Run Graph) := []
  -- the functions that are not run
  rest : List Graph := []

namespace ProgramRun

def functions (r : ProgramRun) : List Graph := r.runs.map (·.state) ++ r.rest

/-- A run that did not fail changed its function. -/
def changed (r : ProgramRun) : Bool := r.runs.any (fun s => s.error.isNone && s.changed)

/-- The function whose run failed, and why. -/
def error (r : ProgramRun) : Option (String × PipelineError) :=
  r.runs.findSome? (fun s => s.error.map (s.state.name, ·))

end ProgramRun

/-- The run of a pipeline over functions, in order. The first failure ends it. -/
def Pipeline.runAll (p : Pipeline Graph) : List Graph → ProgramRun
  | [] => {}
  | g :: gs =>
    let r := p.run g
    if r.error.isSome then { runs := [r], rest := gs }
    else
      let later := p.runAll gs
      { later with runs := r :: later.runs }

end FlowGraph
