import FlowGraph.Graph.Edges
import FlowGraph.Text.Token

/-!
Reading a program. A text is a list of functions; a function is a header, its
body, and a closing brace on a line of its own. A body line is a label or an
instruction. Labels may be named before they stand, values only after.
-/

namespace FlowGraph.Text

/-! ## Faults -/

inductive InstrFault where
  | valueNameExpected (got : Token)
  | valueRedeclared (name : String)
  | operationExpected
  | operationExpectedGot (got : Token)
  | unknownOperation (name : String)
  | noValue (op : Op)
  | operandCount (op : Op) (wanted got : Nat)
  | badImmediate (op : Op) (got : Token)
  | badCondition (got : Token)
  | calleeExpected
  | badCallee (got : Token)
  | valueExpected (got : Token)
  | undefinedValue (name : String)
  | labelExpected (got : Token)
  | undefinedLabel (name : String)
  | tooManyResults
deriving DecidableEq

inductive LineFault where
  | token (fault : TokenFault)
  | headerExpected
  | nameExpected (got : Token)
  | entryExpected
  | extraInHeader
  | unclosed (function : String)
  | labelRedeclared (label : String)
  | noBlocks (function : String)
  | undefinedEntry (label : String)
  | outsideBlock
deriving DecidableEq

/-- Why a text is not a program. -/
inductive ReadError where
  | line (number : Nat) (fault : LineFault)
  | instr (function : String) (number : Nat) (fault : InstrFault)
  | redeclared (function : String)
deriving DecidableEq

/-- A token with its class, as messages show what stood in a wrong place. -/
def Token.shown (t : Token) : String := t.text ++ " (" ++ t.className ++ ")"

def TokenFault.message : TokenFault → String
  | tooLarge ds => "number: strconv.ParseInt: parsing \"" ++ ds ++ "\": value out of range"
  | unsupported b => "unsupported token: " ++ quotedByte b

def InstrFault.message : InstrFault → String
  | valueNameExpected t => "value name expected, got " ++ t.shown
  | valueRedeclared n => "value " ++ n ++ " redeclared"
  | operationExpected => "operation expected"
  | operationExpectedGot t => "operation expected, got " ++ t.shown
  | unknownOperation n => "unknown operation " ++ n
  | noValue op => op.name ++ " does not produce a value"
  | operandCount op wanted got =>
    op.name ++ ": " ++ toString wanted ++ " operands expected, got " ++ toString got
  | badImmediate op t => op.name ++ ": bad immediate " ++ t.text
  | badCondition t => "cmp: bad condition " ++ t.text
  | calleeExpected => "call: callee expected"
  | badCallee t => "call: bad callee " ++ t.text
  | valueExpected t => "value expected, got " ++ t.shown
  | undefinedValue n => "undefined value " ++ n
  | labelExpected t => "label expected, got " ++ t.shown
  | undefinedLabel n => "undefined label " ++ n
  | tooManyResults => "ret: at most one operand expected"

def LineFault.message : LineFault → String
  | token f => f.message
  | headerExpected => "func header expected"
  | nameExpected t => "func name expected, got " ++ t.shown
  | entryExpected => "entry label expected"
  | extraInHeader => "unexpected tokens in func header"
  | unclosed f => "func " ++ f ++ ": closing bracket expected"
  | labelRedeclared l => "label " ++ l ++ " redeclared"
  | noBlocks f => "func " ++ f ++ " has no blocks"
  | undefinedEntry l => "entry label " ++ l ++ " undefined"
  | outsideBlock => "instruction outside of block"

def ReadError.message : ReadError → String
  | line n f => "line " ++ toString n ++ ": " ++ f.message
  | instr g n f => "func " ++ g ++ ": line " ++ toString n ++ ": " ++ f.message
  | redeclared g => "func " ++ g ++ " redeclared"

/-! ## Instructions -/

/-- The names a body line may use: the labels of the function and the values
defined so far. -/
structure Scope where
  labels : List (String × BlockId) := []
  values : List (String × ValueId) := []

def Scope.value (s : Scope) : Token → Except InstrFault ValueId
  | .ident n =>
    match s.values.lookup n with
    | some v => .ok v
    | none => .error (.undefinedValue n)
  | t => .error (.valueExpected t)

def Scope.label (s : Scope) : Token → Except InstrFault BlockId
  | .ident n =>
    match s.labels.lookup n with
    | some b => .ok b
    | none => .error (.undefinedLabel n)
  | t => .error (.labelExpected t)

/-- The number that stands as an immediate. An argument index is not negative. -/
def immediate (op : Op) : Token → Except InstrFault Int64
  | .number x => if op = .arg ∧ x < 0 then .error (.badImmediate op (.number x)) else .ok x
  | t => .error (.badImmediate op t)

def condition : Token → Except InstrFault String
  | .ident n =>
    if (Cond.ofName? n).isSome then .ok n else .error (.badCondition (.ident n))
  | t => .error (.badCondition t)

/-- The action of an operation and the tokens after it. -/
def readAction (s : Scope) (op : Op) (args : List Token) : Except InstrFault Action :=
  let wrongCount (n : Nat) : InstrFault := .operandCount op n args.length
  match op with
  | .const | .arg =>
    match args with
    | [t] => do return { op := op, imm := ← immediate op t }
    | _ => .error (wrongCount 1)
  | .add | .sub | .mul =>
    match args with
    | [x, y] => do
      let x ← s.value x
      let y ← s.value y
      return .binary op x y
    | _ => .error (wrongCount 2)
  | .cmp =>
    match args with
    | [c, x, y] => do
      let c ← condition c
      let x ← s.value x
      let y ← s.value y
      return .cmp c x y
    | _ => .error (wrongCount 3)
  | .call =>
    match args with
    | [] => .error .calleeExpected
    | .ident f :: vs => do return .call f (← vs.mapM s.value)
    | t :: _ => .error (.badCallee t)
  | .br =>
    match args with
    | [l] => do return .br (← s.label l)
    | _ => .error (wrongCount 1)
  | .brif =>
    match args with
    | [c, yes, no] => do
      let c ← s.value c
      let yes ← s.label yes
      let no ← s.label no
      return .brif c yes no
    | _ => .error (wrongCount 3)
  | .ret =>
    if args.length ≤ 1 then do return .ret (← args.mapM s.value)
    else .error .tooManyResults
  | .unknown _ => .error (.unknownOperation op.name)

/-- The action of an instruction without its result name. -/
def readOperation (s : Scope) (named : Bool) : List Token → Except InstrFault Action
  | [] => .error .operationExpected
  | .ident n :: args =>
    match Op.ofName? n with
    | none => .error (.unknownOperation n)
    | some op => if named && !op.defines then .error (.noValue op) else readAction s op args
  | t :: _ => .error (.operationExpectedGot t)

/-- The action of an instruction line, with the name it gives its value, if any. -/
def readInstr (s : Scope) : List Token → Except InstrFault (Option String × Action)
  | .ident n :: .mark .equals :: rest =>
    if (s.values.lookup n).isSome then .error (.valueRedeclared n)
    else do return (some n, ← readOperation s true rest)
  | t :: .mark .equals :: _ => .error (.valueNameExpected t)
  | ts => do return (none, ← readOperation s false ts)

/-! ## Functions -/

/-- The label that a line declares. -/
def Line.label? (l : Line) : Option String :=
  match l.tokens with
  | [.ident n, .mark .colon] => some n
  | _ => none

/-- The line is a closing brace and nothing else. -/
def Line.isClosing (l : Line) : Bool := l.tokens == [.mark .closeBrace]

/-- The name of a function and its entry label, if it gives one. -/
def readHeader (ts : List Token) : Except LineFault (String × Option String) :=
  if ts.length < 3 ∨ ts.head? ≠ some (.ident "func") ∨ ts.getLast? ≠ some (.mark .openBrace) then
    .error .headerExpected
  else match ts with
    | [_, .ident n, _] => .ok (n, none)
    | [_, .ident n, key, label, _] =>
      match label with
      | .ident l => if key = .ident "entry" then .ok (n, some l) else .error .entryExpected
      | _ => .error .entryExpected
    | _ :: .ident _ :: _ => .error .extraInHeader
    | _ :: t :: _ => .error (.nameExpected t)
    | _ => .error .headerExpected

/-- A function being read: its graph, the names in scope, and the block that
the next instruction goes to. -/
structure Draft where
  graph : Graph
  scope : Scope := {}
  -- the block of the label last seen
  current : Option BlockId := none

/-- The draft with a block for every label of the body. -/
def Draft.declare (d : Draft) : List Line → Except ReadError Draft
  | [] => .ok d
  | l :: ls =>
    match l.label? with
    | none => declare d ls
    | some n =>
      if (d.scope.labels.lookup n).isSome then .error (.line l.number (.labelRedeclared n))
      else
        declare
          { d with
            graph := d.graph.addBlock n
            scope := { d.scope with labels := d.scope.labels ++ [(n, d.graph.nextBlock)] } }
          ls

/-- The draft after one body line. -/
def Draft.step (d : Draft) (l : Line) : Except ReadError Draft :=
  match l.label? with
  | some n => .ok { d with current := d.scope.labels.lookup n }
  | none =>
    match d.current with
    | none => .error (.line l.number .outsideBlock)
    | some b =>
      match readInstr d.scope l.tokens with
      | .error e => .error (.instr d.graph.name l.number e)
      | .ok (name, a) =>
        .ok { d with
          graph := d.graph.append b a
          scope := match name with
            | none => d.scope
            | some n => { d.scope with values := d.scope.values ++ [(n, d.graph.nextValue)] } }

/-- The graph with its entry at a label, if one is given. -/
def Draft.enter (d : Draft) (header : Line) : Option String → Except ReadError Draft
  | none => .ok d
  | some l =>
    match d.scope.labels.lookup l with
    | none => .error (.line header.number (.undefinedEntry l))
    | some b => .ok { d with graph := { d.graph with entry := some b } }

/-- The graph of a function with the given header line and body lines. -/
def readBody (header : Line) (name : String) (entry : Option String) (body : List Line) :
    Except ReadError Graph := do
  let d ← Draft.declare { graph := { name := name } } body
  if d.graph.order.isEmpty then .error (.line header.number (.noBlocks name))
  let d ← d.enter header entry
  let d ← body.foldlM Draft.step d
  return d.graph

/-! ## Programs -/

/-- The functions of a list of lines, after those already read. -/
def readFunctions (done : List Graph) : List Line → Except ReadError (List Graph)
  | [] => .ok done
  | header :: rest =>
    match readHeader header.tokens with
    | .error f => .error (.line header.number f)
    | .ok (name, entry) =>
      match rest.dropWhile (fun l => !l.isClosing) with
      | [] => .error (.line header.number (.unclosed name))
      | _ :: _ =>
        match readBody header name entry (rest.takeWhile (fun l => !l.isClosing)) with
        | .error e => .error e
        | .ok g =>
          if done.any (fun f => f.name == name) then .error (.redeclared name)
          else readFunctions (done ++ [g]) (rest.dropWhile (fun l => !l.isClosing)).tail
termination_by ls => ls.length
decreasing_by
  have h := (List.dropWhile_suffix (fun l : Line => !l.isClosing) (l := rest)).length_le
  simp only [List.length_tail, List.length_cons]
  omega

def read (path : String) (text : List UInt8) : Except ReadError Program :=
  match linesOf text with
  | .error (n, f) => .error (.line n (.token f))
  | .ok ls => (readFunctions [] ls).map ({ path := path, functions := · })

end FlowGraph.Text
