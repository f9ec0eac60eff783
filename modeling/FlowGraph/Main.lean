import FlowGraph.CommandLine

/-!
The program: it reads the files that its arguments may name, runs the command
line over them, and prints what comes of it.
-/

namespace FlowGraph

/-- The names of files in an argument: all of it, and what follows an equals sign
or a blank. -/
def namesIn (arg : String) : List String :=
  let after (mark : Char) : String := String.ofList (cutAt mark arg.toList).2
  [arg, after '=', after ' '].filter (· ≠ "")

/-- The file of a name, if it can be read. -/
def fileAt (name : String) : IO Files := do
  try
    let bytes ← IO.FS.readBinFile name
    return [(Files.plainName name, bytes.data.toList)]
  catch _ => return []

end FlowGraph

def main (args : List String) : IO UInt32 := do
  let found ← (args.flatMap FlowGraph.namesIn).mapM FlowGraph.fileAt
  let input ← if args.contains "exec" then (← IO.getStdin).readToEnd else pure ""
  let r := FlowGraph.CommandLine.run args found.flatten (FlowGraph.Text.bytesOf input)
  (← IO.getStdout).write (ByteArray.mk r.output.toArray)
  if let some f := r.failure then IO.eprintln ("error: " ++ f.message)
  return r.code.toUInt32
