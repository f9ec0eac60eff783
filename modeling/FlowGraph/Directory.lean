/-!
Names of files. Files are a list of names with contents: a name that starts
with a slash is read from the root, and any other from the working directory,
which stands in the directory for temporary files. A name leads part by part
to a file or to a directory, or fails at the first part that does not fit.
-/

namespace FlowGraph

abbrev Files := List (String × List UInt8)

/-- Why a name leads nowhere. -/
inductive PathFault where
  | missing
  | notDirectory
  | tooLong
  | invalid
deriving DecidableEq

def PathFault.message : PathFault → String
  | missing => "no such file or directory"
  | notDirectory => "not a directory"
  | tooLong => "file name too long"
  | invalid => "invalid argument"

/-- What a part of a name leads to. -/
inductive Place where
  -- a directory at the parts given below the working directory
  | inside (parts : List String)
  -- a directory at the parts given below the root
  | outside (parts : List String)
  | file (bytes : List UInt8)
  | program (name : String)
deriving DecidableEq

/-! ## The system -/

/-- The directory that holds the working directory. -/
def temporary : List String := ["tmp"]

/-- The directories of the system. -/
def systemDirectories : List (List String) :=
  ["bin", "boot", "dev", "etc", "home", "lib", "lib64", "media", "mnt", "opt", "proc", "root",
    "run", "sbin", "srv", "sys", "tmp", "usr", "var"].map ([·])
  ++ ["bin", "include", "lib", "lib64", "libexec", "local", "sbin", "share", "src"].map (["usr", ·])
  ++ ["cache", "lib", "local", "log", "mail", "opt", "spool", "tmp"].map (["var", ·])

def systemPrograms : List String := ["cat", "echo", "env", "false", "sh", "true"]

/-- The first bytes of a program. -/
def programBytes : List UInt8 := [0x7f, 0x45, 0x4c, 0x46]

/-- What the system has at the parts given below the root. -/
def systemPlace? (parts : List String) : Option Place :=
  match parts with
  | ["dev", "null"] => some (.file [])
  | ["bin", p] | ["usr", "bin", p] =>
    if systemPrograms.contains p then some (.program p) else none
  | _ => if systemDirectories.contains parts then some (.outside parts) else none

/-! ## Names -/

namespace Files

/-- The name of the file or directory at a place. -/
def nameAt : Place → String
  | .inside parts => "/".intercalate parts
  | .outside parts => "/" ++ "/".intercalate parts
  | _ => ""

/-- What stands at a place that is looked for. -/
def place? (fs : Files) (p : Place) : Option Place :=
  match fs.lookup (nameAt p) with
  | some bytes => some (.file bytes)
  | none =>
    if fs.any (fun f => f.1.startsWith (nameAt p ++ "/")) then some p
    else match p with
      | .outside parts => systemPlace? parts
      | _ => none

/-- The directory above one. The root has none above it. -/
def above : Place → Place
  | .inside [] => .outside temporary
  | .inside parts => .inside parts.dropLast
  | .outside parts => .outside parts.dropLast
  | p => p

/-- The place of a part of a name in a directory. -/
def below (here : Place) (part : String) : Place :=
  match here with
  | .inside parts => .inside (parts ++ [part])
  | .outside parts => .outside (parts ++ [part])
  | p => p

/-- The place one more part of a name on, whatever stands there. -/
def advance (here : Place) (part : String) : Place :=
  if part = "" ∨ part = "." then here
  else if part = ".." then above here
  else below here part

/-- What one more part of a name leads to. A part has 255 bytes at most. -/
def step (fs : Files) (here : Place) (part : String) : Except PathFault Place :=
  match here with
  | .file _ | .program _ => .error .notDirectory
  | _ =>
    if ["", ".", ".."].contains part then .ok (advance here part)
    else if part.utf8ByteSize > 255 then .error .tooLong
    else match fs.place? (below here part) with
      | some p => .ok p
      | none => .error .missing

/-- The directory that a name is read from. -/
def startOf (name : String) : Place := if name.startsWith "/" then .outside [] else .inside []

/-- The name without the parts that lead nowhere new. -/
def plainName (name : String) : String :=
  nameAt ((name.splitOn "/").foldl advance (startOf name))

/-- What a name leads to. A name has 4095 bytes at most and no zero byte. -/
def find (fs : Files) (name : String) : Except PathFault Place :=
  if name.contains (Char.ofNat 0) then .error .invalid
  else if name = "" then .error .missing
  else if name.utf8ByteSize > 4095 then .error .tooLong
  else (name.splitOn "/").foldlM fs.step (startOf name)

def read? (fs : Files) (name : String) : Option (List UInt8) :=
  match fs.find name with
  | .ok (.file bytes) => some bytes
  | .ok (.program _) => some programBytes
  | _ => none

end Files

end FlowGraph
