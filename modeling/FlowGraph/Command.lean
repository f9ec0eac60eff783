import FlowGraph.Directory
import FlowGraph.Text.Quoted

/-!
Commands: a line that names a program and its argument, how a run of a
program ends, and how a run cannot start.
-/

namespace FlowGraph

/-! ## How a run ends -/

/-- How a run of a program ended, as the system tells it. -/
structure Status where
  exited : Bool := false
  code : Int := 0
  signaled : Bool := false
  signal : Int := 0
  stopped : Bool := false
  stopSignal : Int := 0
  raw : UInt32 := 0
deriving DecidableEq

namespace Status

def ofCode (code : UInt8) : Status :=
  { exited := true, code := code.toNat, raw := code.toUInt32 * 256 }

def ofSignal (signal : UInt8) : Status :=
  { signaled := true, signal := signal.toNat, raw := signal.toUInt32 }

def success (s : Status) : Bool := s.exited && s.code == 0

/-- The text of a status. A signal that ended the program is told first. -/
def message (s : Status) : String :=
  if s.signaled then "child process exited with signal " ++ toString s.signal
  else if s.exited then "child process exited with code " ++ toString s.code
  else if s.stopped then "child process stopped with signal " ++ toString s.stopSignal
  else "child process exited with unknown status " ++ toString s.raw.toNat

end Status

/-! ## Commands -/

/-- A program and its argument, which is one text even if it has blanks. -/
structure Command where
  program : String
  -- the argument, or the empty text for none
  argument : String
deriving DecidableEq

/-- The part of a list before the first mark, and the part after it. -/
def cutAt (mark : Char) (cs : List Char) : List Char × List Char :=
  (cs.takeWhile (· ≠ mark), (cs.dropWhile (· ≠ mark)).tail)

/-- The command of a text: its first line up to the first blank, and the rest of the line. -/
def Command.ofText (text : String) : Command :=
  let line := (cutAt '\n' text.toList).1
  let (program, argument) := cutAt ' ' line
  { program := String.ofList program, argument := String.ofList argument }

inductive CommandError where
  | unnamed
  | notFound (program : String)
  | root
  | path (program : String) (f : PathFault)
  | notProgram (program : String)
deriving DecidableEq

def CommandError.message : CommandError → String
  | unnamed => "empty program name"
  | notFound p =>
    "run " ++ p ++ ": exec: " ++ Text.quoted p ++ ": executable file not found in $PATH"
  | root => "run /: exec: \"/\": is a directory"
  | path p f => "run " ++ p ++ ": fork/exec " ++ p ++ ": " ++ f.message
  | notProgram p => "run " ++ p ++ ": fork/exec " ++ p ++ ": permission denied"

end FlowGraph
