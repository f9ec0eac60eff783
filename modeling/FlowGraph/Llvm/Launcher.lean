import FlowGraph.Llvm.Name

/-!
The module that runs an external program: it holds the program's name and its
arguments as strings and calls a hook of the runtime with them.
-/

namespace FlowGraph.Llvm

/-- The type of a string with its closing zero byte. -/
def stringType (s : String) : String := "[" ++ toString (s.utf8ByteSize + 1) ++ " x i8]"

/-- The definition of a string under a name. -/
def stringDef (name s : String) : String :=
  "@" ++ name ++ " = constant " ++ stringType s ++ " c" ++ quotedBytes (s ++ "\x00") ++ "\n"

/-- The address of the first byte of a string. -/
def stringStart (name s : String) : String :=
  "i8* getelementptr (" ++ stringType s ++ ", " ++ stringType s ++ "* @" ++ name
    ++ ", i64 0, i64 0)"

/-- The module that runs `prog` with `args` between two file numbers. -/
def launcherText (prog args : String) (stdin stdout : Int64) : String :=
  stringDef ".prog" prog ++ stringDef ".args" args
    ++ "\ndeclare void @execute(i8* %prog, i8* %args, i64 %stdin, i64 %stdout)\n"
    ++ "\ndefine i32 @__anon_expr() \x7b\nentry:\n\tcall void @execute("
    ++ stringStart ".prog" prog ++ ", " ++ stringStart ".args" args
    ++ ", i64 " ++ intText stdin ++ ", i64 " ++ intText stdout ++ ")\n\tret i32 1\n\x7d\n"

end FlowGraph.Llvm
