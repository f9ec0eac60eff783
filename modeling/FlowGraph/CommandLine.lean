import FlowGraph.Command.Executable
import FlowGraph.Text.Printer

/-!
The command line: flags, subcommands and what they print. A run is a function
of the arguments and the files, so that all it does can be told from its result.
-/

namespace FlowGraph.CommandLine

/-! ## Flags -/

inductive Flag where
  | config
  | maxRounds
  | onLimit
  | verbosity
  | dump
deriving DecidableEq

structure Flags where
  config : String := ""
  -- the most rounds, or zero for what the settings say
  maxRounds : Int := 0
  -- the policy, or the empty name for what the settings say
  onLimit : String := ""
  verbosity : String := ""
  dump : Bool := false
deriving DecidableEq

inductive Subcommand where
  | opt
  | llvm
  | exec
deriving DecidableEq

def Subcommand.name : Subcommand → String
  | opt => "opt"
  | llvm => "llvm"
  | exec => "exec"

def Subcommand.ofName? (s : String) : Option Subcommand :=
  [opt, llvm, exec].find? (fun c => c.name == s)

/-- The flag of a name, where a subcommand is given or none yet. -/
def Flag.ofName? (within : Option Subcommand) (s : String) : Option Flag :=
  match s with
  | "config" => some config
  | "max-rounds" => some maxRounds
  | "on-limit" => some onLimit
  | "verbosity" | "v" => some verbosity
  | "dump" => if within = some .exec then some dump else none
  | _ => none

/-- Why a number is not one of 64 bits. -/
inductive NumberFault where
  | malformed
  | outOfRange
deriving DecidableEq

inductive FlagFault where
  | unknown
  | valueMissing
  | notBool
  | notNumber (text : String) (fault : NumberFault)
deriving DecidableEq

def NumberFault.message : NumberFault → String
  | malformed => "invalid syntax"
  | outOfRange => "value out of range"

def FlagFault.message : FlagFault → String
  | unknown => "no such flag"
  | valueMissing => "flag value is required"
  | notBool => "not a bool value"
  | notNumber s f => "strconv.ParseInt: parsing " ++ Text.quoted s ++ ": " ++ f.message

/-- A number with one more digit. It must fit in 64 bits without a sign. -/
def pushDigit (n : Nat) (c : Char) : Except NumberFault Nat :=
  if !c.isDigit then .error .malformed
  else
    let n := 10 * n + (c.toNat - '0'.toNat)
    if n < Nat.pow 2 64 then .ok n else .error .outOfRange

/-- A decimal number of 64 bits, with or without a sign. The first fault from the
left is the one told. -/
def number (s : String) : Except NumberFault Int := do
  let (negative, digits) := match s.toList with
    | '-' :: ds => (true, ds)
    | '+' :: ds => (false, ds)
    | ds => (false, ds)
  if digits.isEmpty then .error .malformed
  else
    let n ← digits.foldlM pushDigit 0
    let n : Int := if negative then -n else n
    if -(Int.pow 2 63) ≤ n ∧ n < Int.pow 2 63 then .ok n else .error .outOfRange

/-- The truth value of a word, whatever its case. The empty word is true. -/
def truth? (s : String) : Option Bool :=
  let s := s.map Char.toLower
  if ["", "true", "t", "yes", "y", "1"].contains s then some true
  else if ["false", "f", "no", "n", "0"].contains s then some false
  else none

/-- The argument is a flag: a dash and more, but not two dashes alone. -/
def isFlag (arg : String) : Bool := arg.startsWith "-" && arg != "-" && arg != "--"

/-- The name in a flag, after one dash or two, and the value after an equals sign
or a space. -/
def splitFlag (arg : String) : String × Option String :=
  let body := match arg.toList with
    | '-' :: '-' :: cs => cs
    | '-' :: cs => cs
    | cs => cs
  let inName := fun c => c != '=' && c != ' '
  let value := match body.dropWhile inName with
    | _ :: cs => some (String.ofList cs)
    | [] => none
  (String.ofList (body.takeWhile inName), value)

def Flags.set (fs : Flags) (f : Flag) (value : String) : Except FlagFault Flags :=
  match f with
  | .config => .ok { fs with config := value }
  | .onLimit => .ok { fs with onLimit := value }
  | .verbosity => .ok { fs with verbosity := value }
  | .maxRounds =>
    match number value with
    | .ok n => .ok { fs with maxRounds := n }
    | .error e => .error (.notNumber value e)
  | .dump =>
    match truth? value with
    | some b => .ok { fs with dump := b }
    | none => .error .notBool

/-- The flags after a flag of the line, and the arguments left. A truth value is
never taken from the next argument. -/
def Flags.take (fs : Flags) (within : Option Subcommand) (arg : String) (rest : List String) :
    Except FlagFault (Flags × List String) :=
  let (name, value) := splitFlag arg
  match Flag.ofName? within name, value, rest with
  | none, _, _ => .error .unknown
  | some f, some v, rest => (fs.set f v).map (·, rest)
  | some .dump, none, rest => (fs.set .dump "").map (·, rest)
  | some f, none, v :: rest => (fs.set f v).map (·, rest)
  | some _, none, [] => .error .valueMissing

/-! ## Lines -/

inductive LineError where
  | flag (within : Option Subcommand) (arg : String) (fault : FlagFault)
  | unexpected (arg : String)
deriving DecidableEq

/-- A command line: its flags and, with a subcommand, its arguments. -/
structure Line where
  flags : Flags := {}
  command : Option Subcommand := none
  args : List String := []
deriving DecidableEq

/-- Reads what is left of a line. Before the subcommand there are flags only, and
after two dashes there are arguments only. A step takes an argument at least. -/
def Line.read : Nat → Line → List String → Except LineError Line
  | 0, l, _ => .ok l
  | _ + 1, l, [] => .ok l
  | fuel + 1, l, arg :: rest =>
    if isFlag arg then
      match l.flags.take l.command arg rest with
      | .error f => .error (.flag l.command arg f)
      | .ok (fs, rest) => Line.read fuel { l with flags := fs } rest
    else match l.command with
      | none =>
        match Subcommand.ofName? arg with
        | none => .error (.unexpected arg)
        | some c => Line.read fuel { l with command := some c } rest
      | some _ =>
        if arg = "--" then .ok { l with args := l.args ++ rest }
        else Line.read fuel { l with args := l.args ++ [arg] } rest

def Line.ofArgs (args : List String) : Except LineError Line := Line.read args.length {} args

/-! ## Results -/

inductive Failure where
  | line (e : LineError)
  | loadSettings (c : Subcommand) (e : FileError DecodeError)
  | settings (c : Subcommand) (f : SettingsFault)
  | optimize (file : String) (e : FileError OptimizeError)
  | format (file function : String) (e : Text.PrintError)
  | compile (file : String) (e : FileError CompileError)
  | argumentCount
  | command (e : CommandError)
deriving DecidableEq

def Failure.message : Failure → String
  | line (.flag none arg f) => "parse flag: " ++ arg ++ ": " ++ f.message
  | line (.flag (some c) arg f) => c.name ++ ": parse flag: " ++ arg ++ ": " ++ f.message
  | line (.unexpected arg) => "no args expected, got " ++ arg
  | loadSettings c e => c.name ++ ": config: " ++ settingsFileMessage e
  | settings c f => c.name ++ ": config: " ++ f.message
  | optimize file e =>
    "opt: optimize " ++ file ++ ": " ++ sourceFileMessage OptimizeError.message e
  | format file f e => "opt: format " ++ file ++ ": func " ++ f ++ ": " ++ e.message
  | compile file e =>
    "llvm: compile " ++ file ++ ": " ++ sourceFileMessage CompileError.message e
  | argumentCount => "exec: one argument expected: \"prog args\""
  | command e => "exec: exec: " ++ e.message

/-- The failure is one that the program cannot go on from. -/
def Failure.isCrash : Failure → Bool
  | loadSettings _ (.content _ .crash) => true
  | optimize _ (.content _ (.run _ e)) => e.isCrash
  | compile _ (.content _ (.optimize (.run _ e))) => e.isCrash
  | compile _ (.content _ (.lower _ .crash)) => true
  | compile _ (.content _ (.print _)) => true
  | _ => false

/-- What a run of a command line leaves: what it printed, and its failure, if any. -/
structure Result where
  output : List UInt8 := []
  failure : Option Failure := none
deriving DecidableEq

/-- The code that the run ends with. -/
def Result.code (r : Result) : UInt8 :=
  match r.failure with
  | none => 0
  | some f => if f.isCrash then 2 else 1

/-! ## Runs -/

def help : String :=
  "cfgopt [flags] - cfgopt simplifies control-flow graphs\n"
    ++ "\nSubcommands\n"
    ++ "    opt                  - optimize textual IR and print the result\n"
    ++ "    llvm                 - optimize textual IR and print LLVM IR\n"
    ++ "    exec                 - run \"prog args\" through the execution shim\n"
    ++ "\nFlags\n"
    ++ "    config               - pipeline config file (yaml)\n"
    ++ "    max-rounds           - override max_rounds (default 0)\n"
    ++ "    on-limit             - override on_limit: reject or emit\n"
    ++ "    verbosity,v          - tlog verbosity topics\n"

/-- The settings that the flags ask for. -/
def settingsFor (c : Subcommand) (files : Files) (fs : Flags) : Except Failure Settings := do
  let s ← if fs.config = "" then .ok Settings.default
    else (files.loadSettings fs.config).mapError (.loadSettings c)
  let s := if fs.maxRounds = 0 then s else { s with maxRounds := fs.maxRounds }
  let s := if fs.onLimit = "" then s else { s with onLimit := fs.onLimit }
  match s.fault? with
  | some f => throw (.settings c f)
  | none => return s

def optimizeFile (files : Files) (s : Settings) (file : String) : Except Failure String := do
  let program ← (files.optimize s file).mapError (.optimize file)
  (Text.printFunctions program.functions).mapError (fun (f, e) => .format file f e)

def compileFile (files : Files) (s : Settings) (file : String) : Except Failure String :=
  (files.compile s file).mapError (.compile file)

/-- The texts made of the files of a list, up to the first failure. -/
def each (work : String → Except Failure String) : List String → Result
  | [] => {}
  | file :: rest =>
    match work file with
    | .error f => { failure := some f }
    | .ok text =>
      let r := each work rest
      { r with output := Text.bytesOf text ++ r.output }

/-- The run of a command given as one argument. -/
def execute (files : Files) (args : List String) (input : List UInt8) : Result :=
  match args with
  | [arg] =>
    match (Command.ofText arg).run files input with
    | .error e => { failure := some (.command e) }
    | .ok f => { output := f.output ++ Text.bytesOf (f.status.message ++ "\n") }
  | _ => { failure := some .argumentCount }

def Line.run (l : Line) (files : Files) (input : List UInt8) : Result :=
  let onFiles := fun c work =>
    match settingsFor c files l.flags with
    | .error f => { failure := some f }
    | .ok s => each (work s) l.args
  match l.command with
  | none => { output := Text.bytesOf help }
  | some .opt => onFiles .opt (optimizeFile files)
  | some .llvm => onFiles .llvm (compileFile files)
  | some .exec => execute files l.args input

def run (args : List String) (files : Files) (input : List UInt8) : Result :=
  match Line.ofArgs args with
  | .error e => { failure := some (.line e) }
  | .ok l => l.run files input

end FlowGraph.CommandLine
