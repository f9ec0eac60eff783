import FlowGraph.Compile
import FlowGraph.Directory
import FlowGraph.Settings.Decode

/-!
Work on files: each piece of work names the file it reads.
-/

namespace FlowGraph

/-! ## Failures -/

inductive AccessFault where
  | path (name : String) (f : PathFault)
  | directory (name : String)
deriving DecidableEq

def AccessFault.message : AccessFault → String
  | path name f => "open " ++ name ++ ": " ++ f.message
  | directory name => "read " ++ name ++ ": is a directory"

/-- How the work on a file fails: it cannot be read, or the work on its contents fails. -/
inductive FileError (ε : Type) where
  | access (f : AccessFault)
  | content (name : String) (e : ε)
deriving DecidableEq

def settingsFileMessage : FileError DecodeError → String
  | .access f => "read config: " ++ f.message
  | .content name e => "config " ++ name ++ ": " ++ e.message

def programFileMessage : FileError Text.ReadError → String
  | .access f => "read: " ++ f.message
  | .content _ e => e.message

/-- The text of a failure to optimize or to compile a file. -/
def sourceFileMessage {ε : Type} (message : ε → String) : FileError ε → String
  | .access f => "read file: " ++ f.message
  | .content _ e => message e

/-! ## The work -/

namespace Files

/-- Work on the contents of a file. -/
def within {ε α : Type} (fs : Files) (name : String) (work : List UInt8 → Except ε α) :
    Except (FileError ε) α :=
  match fs.find name with
  | .error f => .error (.access (.path name f))
  | .ok (.inside _) | .ok (.outside _) => .error (.access (.directory name))
  | .ok (.file bytes) => (work bytes).mapError (.content name)
  | .ok (.program _) => (work programBytes).mapError (.content name)

def readProgram (fs : Files) (name : String) : Except (FileError Text.ReadError) Program :=
  fs.within name (Text.read name)

def optimize (fs : Files) (s : Settings) (name : String) :
    Except (FileError OptimizeError) Program :=
  fs.within name (s.optimize name)

def compile (fs : Files) (s : Settings) (name : String) :
    Except (FileError CompileError) String :=
  fs.within name (s.compile name)

def loadSettings (fs : Files) (name : String) : Except (FileError DecodeError) Settings :=
  fs.within name (fun bytes =>
    match Text.ofBytes? bytes with
    | none => .error .malformed
    | some text => Settings.ofText text)

end Files

end FlowGraph
