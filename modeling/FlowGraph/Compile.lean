import FlowGraph.Llvm.Lower
import FlowGraph.Llvm.Printer
import FlowGraph.Settings
import FlowGraph.Text.Reader

/-!
From a text to a simplified program, and on to the text of a module: read,
run the pipeline, lower, print. Each step has its own failures, and a failure
says which step it is from.
-/

namespace FlowGraph

/-! ## Where a failure comes from -/

def PassError.violation? : PassError → Option Violation
  | malformed v | refused _ v => some v
  | crash | own _ => none

def PipelineError.violation? : PipelineError → Option Violation
  | input v | after _ _ v => some v
  | pass _ _ e => e.violation?
  | noFixpoint _ _ => none

/-- A pass of the run could not go on. -/
def PipelineError.isCrash : PipelineError → Bool
  | pass _ _ .crash => true
  | _ => false

def LowerError.violation? : LowerError → Option Violation
  | noEntry v => some v
  | instr _ _ _ _ | crash => none

/-! ## Failures -/

/-- Why a text does not become a simplified program. -/
inductive OptimizeError where
  | settings (f : SettingsFault)
  | read (e : Text.ReadError)
  | run (function : String) (e : PipelineError)
deriving DecidableEq

def OptimizeError.message : OptimizeError → String
  | settings f => "pipeline: " ++ f.message
  | read e => "parse: " ++ e.message
  | run f e => "optimize: func " ++ f ++ ": " ++ e.message

/-- Why a text does not become the text of a module. -/
inductive CompileError where
  | optimize (e : OptimizeError)
  | lower (function : String) (e : LowerError)
  | print (e : Llvm.MissingTerminator)
deriving DecidableEq

def CompileError.message : CompileError → String
  | optimize e => e.message
  | lower f e => "compile: func " ++ f ++ ": " ++ e.message
  | print e => e.message

/-! ## The steps -/

/-- The program of a text after a pipeline was run over it. -/
def Settings.optimize (s : Settings) (path : String) (text : List UInt8) :
    Except OptimizeError Program := do
  let pipeline ← s.pipeline.mapError .settings
  let program ← (Text.read path text).mapError .read
  let run := pipeline.runAll program.functions
  match run.error with
  | some (f, e) => throw (.run f e)
  | none => return { program with functions := run.functions }

/-- The text of the module that a text is compiled to. -/
def Settings.compile (s : Settings) (path : String) (text : List UInt8) :
    Except CompileError String := do
  let program ← (s.optimize path text).mapError .optimize
  let module ← program.lower.mapError (fun (f, e) => .lower f e)
  module.text.mapError .print

end FlowGraph
