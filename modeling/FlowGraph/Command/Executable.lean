import FlowGraph.Command
import FlowGraph.Command.Words
import FlowGraph.Files
import FlowGraph.Text.Bytes

/-!
The programs that a command can name. A program is a function of its
arguments, its input and the files around it. It gives back how it ended,
what it printed, and the input it did not read.
-/

namespace FlowGraph

/-- What a run of a program leaves. -/
structure Finish where
  status : Status
  output : List UInt8 := []
  -- the input it did not read
  rest : List UInt8 := []
deriving DecidableEq

namespace Executable

/-! ## Programs that start no other -/

/-- The argument is made of options for printing: a dash and letters. -/
def isEchoOption (s : String) : Bool :=
  match s.toList with
  | '-' :: c :: cs => (c :: cs).all (fun c => "neE".contains c)
  | _ => false

/-- Prints the arguments with blanks between them, and a line end unless told otherwise. -/
def echo (args : List String) (input : List UInt8) : Finish :=
  let options := args.takeWhile isEchoOption
  let quiet := options.any (fun s => s.contains 'n')
  let text := " ".intercalate (args.dropWhile isEchoOption)
  { status := .ofCode 0, output := Text.bytesOf (if quiet then text else text ++ "\n"), rest := input }

/-- Prints files one after another, or the input if none is named. -/
def cat (files : Files) (args : List String) (input : List UInt8) : Finish :=
  (if args.isEmpty then ["-"] else args).foldl
    (fun f name =>
      if name = "-" then { f with output := f.output ++ f.rest, rest := [] }
      else match files.read? name with
        | some bytes => { f with output := f.output ++ bytes }
        | none => { f with status := .ofCode 1 })
    { status := .ofCode 0, rest := input }

/-! ## Scripts -/

/-- The signals that end a program, by name. -/
def signals : List (String × UInt8) :=
  [("HUP", 1), ("INT", 2), ("QUIT", 3), ("ILL", 4), ("TRAP", 5), ("ABRT", 6), ("BUS", 7),
   ("FPE", 8), ("KILL", 9), ("USR1", 10), ("SEGV", 11), ("USR2", 12), ("PIPE", 13),
   ("ALRM", 14), ("TERM", 15), ("STKFLT", 16), ("XCPU", 24), ("XFSZ", 25), ("VTALRM", 26),
   ("PROF", 27), ("POLL", 29), ("PWR", 30), ("SYS", 31)]

def signal? (s : String) : Option UInt8 :=
  match s.toNat? with
  | some n => (signals.find? (fun x => x.2.toNat = n)).map (·.2)
  | none => signals.lookup s

/-- The signal that a script sends to itself with these arguments. -/
def ownSignal? : List String → Option UInt8
  | ["$$"] => some 15
  | ["-s", name, "$$"] => signal? name
  | [option, "$$"] =>
    match option.toList with
    | '-' :: cs => signal? (String.ofList cs)
    | _ => none
  | _ => none

/-- What a command of a script comes to: a finished program, or the end of the script. -/
inductive Outcome where
  | done (f : Finish)
  | ended (f : Finish)

/-- The code that a script sees of a status. -/
def codeOf (s : Status) : UInt8 :=
  if s.signaled then UInt8.ofNat (128 + s.signal.toNat) else UInt8.ofNat s.code.toNat

/-- The outcome of one command, with a way to start programs. -/
def simple (start : String → List String → List UInt8 → Option Finish) (last : UInt8)
    (input : List UInt8) : List String → Outcome
  | [] => .done { status := .ofCode last, rest := input }
  | "exit" :: args =>
    match args with
    | [] => .ended { status := .ofCode last, rest := input }
    | n :: _ =>
      .ended { status := .ofCode ((n.toNat?.map UInt8.ofNat).getD 2), rest := input }
  | "kill" :: args =>
    match ownSignal? args with
    | some s => .ended { status := .ofSignal s, rest := input }
    | none => .done { status := .ofCode 1, rest := input }
  | "exec" :: name :: args =>
    .ended ((start name args input).getD { status := .ofCode 127, rest := input })
  | ":" :: _ => .done { status := .ofCode 0, rest := input }
  | name :: args =>
    .done ((start name args input).getD { status := .ofCode 127, rest := input })

def script (start : String → List String → List UInt8 → Option Finish) :
    List (Joint × List String) → Finish → Finish
  | [], f => f
  | (j, words) :: later, f =>
    let last := codeOf f.status
    let wanted := match j with
      | .always => true
      | .onSuccess => last == 0
      | .onFailure => last != 0
    if wanted then
      match simple start last f.rest words with
      | .done g => script start later { g with output := f.output ++ g.output }
      | .ended g => { g with output := f.output ++ g.output }
    else script start later f

def scriptText (start : String → List String → List UInt8 → Option Finish) (text : String)
    (input : List UInt8) : Finish :=
  match Piece.script? text with
  | none => { status := .ofCode 2, rest := input }
  | some commands =>
    let f := script start commands { status := .ofCode 0, rest := input }
    { f with status := if f.status.signaled then f.status else .ofCode (codeOf f.status) }

/-- A shell: it runs the script it is given, the script in a file, or its input. -/
def shell (start : String → List String → List UInt8 → Option Finish) (files : Files)
    (args : List String) (input : List UInt8) : Finish :=
  match args with
  | "-c" :: text :: _ => scriptText start text input
  | [] => scriptText start ((Text.ofBytes? input).getD "") []
  | name :: _ =>
    match files.read? name with
    | some bytes => scriptText start ((Text.ofBytes? bytes).getD "") input
    | none => { status := .ofCode 2, rest := input }

/-- The words that a program with a changed environment is to start: assignments
are left out, and a joined text is split. -/
def environmentWords? : List String → Option (List String)
  | [] => some []
  | "-S" :: text :: args => (Piece.words? text).map (· ++ args)
  | "-i" :: args => environmentWords? args
  | "--" :: args => some args
  | word :: args =>
    match word.toList with
    | '-' :: 'S' :: text => (Piece.words? (String.ofList text)).map (· ++ args)
    | '-' :: _ => none
    | cs => if cs.contains '=' then environmentWords? args else some (word :: args)

/-! ## All programs -/

/-- The name of the program that a name with a slash leads to, or the name itself. -/
def plainName (files : Files) (name : String) : String :=
  if !name.contains '/' then name
  else match files.find name with
    | .ok (.program p) => p
    | _ => name

/-- The run of a program by name, if there is one. A program may start others, at
most `fuel` inside each other. -/
def start (files : Files) : Nat → String → List String → List UInt8 → Option Finish
  | 0, _, _, _ => none
  | fuel + 1, name, args, input =>
    match plainName files name with
    | "true" => some { status := .ofCode 0, rest := input }
    | "false" => some { status := .ofCode 1, rest := input }
    | "echo" => some (echo args input)
    | "cat" => some (cat files args input)
    | "sh" => some (shell (start files fuel) files args input)
    | "env" =>
      match environmentWords? args with
      | none => some { status := .ofCode 125, rest := input }
      | some [] => some { status := .ofCode 0, rest := input }
      | some (name :: args) =>
        some ((start files fuel name args input).getD { status := .ofCode 127, rest := input })
    | _ => none

end Executable

open Executable

def Command.run (files : Files) (c : Command) (input : List UInt8) :
    Except CommandError Finish :=
  let args := if c.argument = "" then [] else [c.argument]
  if c.program = "" then .error .unnamed
  else match start files (c.argument.length + input.length + 2) c.program args input with
    | some f => .ok f
    | none =>
      if !c.program.contains '/' then .error (.notFound c.program)
      else if c.program = "/" then .error .root
      else match files.find c.program with
        | .error f => .error (.path c.program f)
        | .ok _ => .error (.notProgram c.program)

end FlowGraph
