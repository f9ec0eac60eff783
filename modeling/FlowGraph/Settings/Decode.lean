import FlowGraph.Settings
import FlowGraph.Yaml.Node

/-!
Settings from a YAML text. What the text says is laid over the default
settings. Problems do not stop the decoding, so all of them are reported, in
the order of the text. A text that is malformed, or that has a key that cannot
be told from others, ends it at once.
-/

namespace FlowGraph

open Yaml (Node Document)

/-! ## Problems -/

/-- What a node of the text was to become. -/
inductive Target where
  | int
  | bool
  | string
  | strings
  | policy
  | settings
deriving DecidableEq

def Target.name : Target → String
  | int => "int"
  | bool => "bool"
  | string => "string"
  | strings => "[]string"
  | policy => "transform.Policy"
  | settings => "transform.Config"

/-- What does not fit in a text that is well formed. -/
inductive DecodeProblem where
  | unknownField (line : Nat) (name : List UInt8)
  | repeatedField (line : Nat) (name : String)
  | repeatedKey (line : Nat) (key : String) (before : Nat)
  | mismatch (line : Nat) (tag text : String) (target : Target)
deriving DecidableEq

/-- The first seven bytes of a text, and dots. A character that is cut is shown
as one mark for each of its bytes. -/
def cutText (s : String) : String :=
  let rec take : Nat → List Char → List Char
    | 0, _ => []
    | _, [] => []
    | n, c :: rest =>
      if c.utf8Size ≤ n then c :: take (n - c.utf8Size) rest else List.replicate n '\uFFFD'
  String.ofList (take 7 s.toList) ++ "..."

/-- The text of a scalar in a message. -/
def shownScalar (s : String) : String :=
  " " ++ "`" ++ (if s.utf8ByteSize > 10 then cutText s else s) ++ "`"

def DecodeProblem.message : DecodeProblem → String
  | unknownField n f =>
    "line " ++ toString n ++ ": field " ++ Text.markedText f ++ " not found in type "
      ++ Target.settings.name
  | repeatedField n f =>
    "line " ++ toString n ++ ": field " ++ f ++ " already set in type " ++ Target.settings.name
  | repeatedKey n k m =>
    "line " ++ toString n ++ ": mapping key " ++ Text.quoted k ++ " already defined at line "
      ++ toString m
  | mismatch n tag text t =>
    "line " ++ toString n ++ ": cannot unmarshal " ++ tag
      ++ (if tag = "!!seq" ∨ tag = "!!map" then text else shownScalar text) ++ " into " ++ t.name

/-- Why a text gives no settings. -/
inductive DecodeError where
  | malformed
  -- the decoding cannot go on: a key of a mapping that others are merged into is itself a list or
  -- a mapping
  | crash
  | problems (ps : List DecodeProblem)
  | invalid (f : SettingsFault)
deriving DecidableEq

def DecodeError.message : DecodeError → String
  | malformed => "decode: yaml: "
  | crash => ""
  | problems ps =>
    "decode: yaml: unmarshal errors:\n  " ++ "\n  ".intercalate (ps.map (·.message))
  | invalid f => f.message

/-! ## Scalars -/

namespace Decode

/-- A value of sixty-four bits for a fraction, which is cut to a whole number. One
above the largest has none. -/
def wholeOf? : Yaml.Real → Option Int
  | .finite num den =>
    if Int.pow 2 63 * den < num then none
    else
      let n := num.tdiv den
      some (if -(Int.pow 2 63) ≤ n ∧ n < Int.pow 2 63 then n else -(Int.pow 2 63))
  | .infinite true => some (-(Int.pow 2 63))
  | .infinite false => none
  | .notANumber => none

def base64Digit? (c : Char) : Option Nat :=
  if 'A' ≤ c ∧ c ≤ 'Z' then some (c.toNat - 'A'.toNat)
  else if 'a' ≤ c ∧ c ≤ 'z' then some (c.toNat - 'a'.toNat + 26)
  else if c.isDigit then some (c.toNat - '0'.toNat + 52)
  else if c = '+' then some 62
  else if c = '/' then some 63
  else none

/-- The bytes of base-64 digits, four digits at a time. -/
def base64Bytes? : List Char → Option (List UInt8)
  | [] => some []
  | [a, b, '=', '='] => do
    let x ← base64Digit? a
    let y ← base64Digit? b
    return [UInt8.ofNat (4 * x + y / 16)]
  | [a, b, c, '='] => do
    let x ← base64Digit? a
    let y ← base64Digit? b
    let z ← base64Digit? c
    return [UInt8.ofNat (4 * x + y / 16), UInt8.ofNat (16 * y + z / 4)]
  | a :: b :: c :: d :: rest => do
    let x ← base64Digit? a
    let y ← base64Digit? b
    let z ← base64Digit? c
    let w ← base64Digit? d
    let tail ← base64Bytes? rest
    return [UInt8.ofNat (4 * x + y / 16), UInt8.ofNat (16 * y + z / 4), UInt8.ofNat (64 * z + w)]
      ++ tail
  | _ => none

/-- A whole number as a fraction in double precision. -/
def realOf (n : Int) : Yaml.Real :=
  if n = 0 then .finite 0 1
  else
    let (num, den) := Double.round n.natAbs 1
    .finite (n.sign * num) den

/-- What a scalar stands for, with the bytes of its text. A text that is not what
its tag says is malformed. A whole number of more than 64 bits with a sign is no fraction. -/
def scalarOf? (tag text : String) : Option (Yaml.Resolved × List UInt8) :=
  let bytes := Text.bytesOf text
  if tag = "!!str" then some (.text, bytes)
  else if tag = "!!binary" then
    (base64Bytes? (text.toList.filter (fun c => c ≠ '\n' ∧ c ≠ '\r'))).map (.text, ·)
  else if ["!!bool", "!!int", "!!float", "!!null", "!!timestamp"].contains tag then
    match Yaml.resolveAs (tag = "!!timestamp") text with
    | .int n =>
      if tag = "!!int" then some (.int n, bytes)
      else if tag = "!!float" && n < Int.pow 2 63 then some (.float (realOf n), bytes)
      else none
    | r => if r.tag = tag then some (r, bytes) else none
  else some (.text, bytes)

/-- The words that stand for a truth value where one is wanted. -/
def boolWord? (s : String) : Option Bool :=
  if ["y", "Y", "yes", "Yes", "YES", "on", "On", "ON"].contains s then some true
  else if ["n", "N", "no", "No", "NO", "off", "Off", "OFF"].contains s then some false
  else none

/-! ## Decoding -/

/-- What keys are told apart by where mappings are merged: what the key stands
for, and its bytes if it is a text or a date. -/
structure Key where
  value : Yaml.Resolved
  bytes : List UInt8
deriving DecidableEq

def Key.text (bytes : List UInt8) : Key := { value := .text, bytes := bytes }

def Key.ofScalar (r : Yaml.Resolved) (bytes : List UInt8) : Key :=
  { value := r, bytes := if r = .text ∨ r = .timestamp then bytes else [] }

structure State where
  draft : Draft
  problems : List DecodeProblem := []
  -- the keys already taken, while mappings are merged
  taken : Option (List Key) := none
  visits : Nat := 0
  -- the visits through an alias
  aliasVisits : Nat := 0

/-- Most of the decoding comes from aliases. A hundredth of the nodes must be
visited without one, and a larger share from 400000 nodes on, up to nine
tenths for 4000000. -/
def State.isExcessive (s : State) : Bool :=
  let low := 400000
  let high := 4000000
  s.aliasVisits > 100 && s.visits > 1000 &&
    if s.visits ≤ low then 100 * s.aliasVisits > 99 * s.visits
    else if high ≤ s.visits then 10 * s.aliasVisits > s.visits
    else
      100 * (high - low) * s.aliasVisits
        > (99 * (high - low) - 89 * (s.visits - low)) * s.visits

/-- A step of a decoding: it changes the state, or ends the decoding. -/
abbrev Decoding := StateT State (Except DecodeError)

def visit (aliased : Bool) : Decoding Unit := do
  modify fun s => { s with
    visits := s.visits + 1, aliasVisits := s.aliasVisits + if aliased then 1 else 0 }
  if (← get).isExcessive then throw .malformed

def report (ps : List DecodeProblem) : Decoding Unit :=
  modify fun s => { s with problems := s.problems ++ ps }

/-- The value of what must be there in a text that is well formed. -/
def require {α : Type} : Option α → Decoding α
  | some x => pure x
  | none => throw .malformed

/-! ## Nodes -/

def lineOf : Node → Nat
  | .scalar n _ _ | .sequence n _ _ | .mapping n _ _ | .alias n _ _ => n

/-- A node's kind and text, by which the keys of a mapping are told apart. -/
def keyOf : Node → Nat × String
  | .scalar _ _ s => (0, s)
  | .sequence _ _ _ => (1, "")
  | .mapping _ _ _ => (2, "")
  | .alias _ s _ => (3, s)

/-- The key asks for a mapping to be merged in. -/
def isMerge : Node → Bool
  | .scalar _ tag s => s == "<<" && tag == "!!merge"
  | _ => false

/-- The keys that repeat, each pair of equal ones in order. -/
def repeatedKeys : List Node → List DecodeProblem
  | [] => []
  | k :: rest =>
    (rest.filter (fun j => keyOf j == keyOf k)).map
      (fun j => .repeatedKey (lineOf j) (keyOf j).2 (lineOf k)) ++ repeatedKeys rest

/-- The problem of a node that does not fit a target. -/
def mismatch (n : Node) (t : Target) : DecodeProblem :=
  match n with
  | .scalar line tag s => .mismatch line tag s t
  | .sequence line tag _ => .mismatch line tag "" t
  | .mapping line tag _ => .mismatch line tag "" t
  | .alias line _ _ => .mismatch line "" "" t

/-- Visits a node, and the one it names if it is an alias. The flag of the answer
says that the node was reached through an alias. -/
def enter (d : Document) (aliased : Bool) (n : Node) : Decoding (Node × Bool) := do
  visit aliased
  match n with
  | .alias _ _ a =>
    let target ← require (d.anchored.lookup a)
    visit true
    return (target, true)
  | n => return (n, aliased)

/-- Reports a mapping or a list that stands where a scalar is wanted. -/
def reportComposite (n : Node) (t : Target) : Decoding Unit :=
  match n with
  | .mapping _ _ es =>
    match repeatedKeys (es.map (·.1)) with
    | [] => report [mismatch n t]
    | ps => report ps
  | n => report [mismatch n t]

/-- The value of a node whose target takes scalars only. Nothing in the text is
no value and no problem. -/
def scalarTarget {α : Type} (d : Document) (aliased : Bool) (n : Node) (t : Target)
    (fits : Yaml.Resolved → List UInt8 → Option α) : Decoding (Option α) := do
  let (n, _) ← enter d aliased n
  match n with
  | .scalar _ tag s =>
    let (r, bytes) ← require (scalarOf? tag s)
    if r = .null then return none
    else match fits r bytes with
      | some x => return some x
      | none => do
        report [mismatch n t]
        return none
  | n => do
    reportComposite n t
    return none

def textAt (d : Document) (aliased : Bool) (n : Node) (t : Target) :
    Decoding (Option (List UInt8)) :=
  scalarTarget d aliased n t fun _ bytes => some bytes

def intAt (d : Document) (aliased : Bool) (n : Node) : Decoding (Option Int) :=
  scalarTarget d aliased n .int fun r _ =>
    match r with
    | .int n => if n < Int.pow 2 63 then some n else none
    | .float x => wholeOf? x
    | _ => none

def boolAt (d : Document) (aliased : Bool) (n : Node) : Decoding (Option Bool) :=
  scalarTarget d aliased n .bool fun r bytes =>
    match r with
    | .bool b => some b
    | .text => (Text.ofBytes? bytes).bind boolWord?
    | _ => none

/-- The texts of a node that is a list. Items that do not fit are left out, and
nothing in the text is an empty list. -/
def textsAt (d : Document) (aliased : Bool) (n : Node) : Decoding (Option (List (List UInt8))) := do
  let (n, aliased) ← enter d aliased n
  match n with
  | .sequence _ _ items =>
    let found ← items.mapM fun i => textAt d aliased i .string
    return some (found.filterMap id)
  | .scalar _ tag s =>
    let (r, _) ← require (scalarOf? tag s)
    if r = .null then return some []
    else do
      report [mismatch n .strings]
      return none
  | n => do
    reportComposite n .strings
    return none

/-! ## Merged mappings -/

/-- The entries of a mapping without those that ask for a merge, and the last such. -/
def splitMerge (es : List (Node × Node)) : List (Node × Node) × Option Node :=
  (es.filter fun e => !isMerge e.1, ((es.filter fun e => isMerge e.1).getLast?).map (·.2))

/-- What the node names is a mapping. -/
def isMapping (d : Document) : Node → Bool
  | .mapping _ _ _ => true
  | .alias _ _ a =>
    match d.anchored.lookup a with
    | some (.mapping _ _ _) => true
    | _ => false
  | _ => false

/-- Merges a node into the mapping with these keys. `keyAt` gives the key of a
node, and `into` takes a mapping in. The keys of the outermost mapping are taken
first. A key that is a list or a mapping cannot be told from others. -/
def merge (d : Document) (keyAt : Node → Decoding (Option (Option Key)))
    (into : Node → Decoding Unit) (keys : List Node) (m : Node) : Decoding Unit := do
  let before := (← get).taken
  if before.isNone then
    modify fun s => { s with taken := some [] }
    for k in keys do
      match ← keyAt k with
      | none => pure ()
      | some none => throw .crash
      | some (some key) =>
        modify fun s => { s with taken := s.taken.map (key :: ·) }
  let items := match m with
    | .sequence _ _ items => items
    | m => [m]
  for i in items do
    if isMapping d i then into i else throw .malformed
  modify fun s => { s with taken := before.bind fun _ => s.taken }

/-- The key is taken now, if keys are taken at all. The answer says that it was
taken before. -/
def take (key : Option Key) (taken : Option (List Key)) :
    Except DecodeError (Bool × Option (List Key)) :=
  match taken, key with
  | none, _ => .ok (false, none)
  | some _, none => .error .crash
  | some ks, some k => .ok (ks.contains k, some (k :: ks))

/-- The key that a node comes to where any value may stand, at most `fuel` deep.
A list or a mapping is the inner `none`, and one with problems the outer. -/
def anyAt (d : Document) : Nat → Bool → Node → Decoding (Option (Option Key))
  | 0, _, _ => throw .malformed
  | fuel + 1, aliased, n => do
    let (n, aliased) ← enter d aliased n
    match n with
    | .scalar _ tag s =>
      let (r, bytes) ← require (scalarOf? tag s)
      return some (some (.ofScalar r bytes))
    | .sequence _ _ items =>
      for i in items do
        let _ ← anyAt d fuel aliased i
      return some none
    | .mapping _ _ es =>
      match repeatedKeys (es.map (·.1)) with
      | p :: ps => do
        report (p :: ps)
        return none
      | [] =>
        let (entries, merged) := splitMerge es
        let mut taken := (← get).taken
        modify fun s => { s with taken := none }
        for (k, v) in entries do
          if let some key ← anyAt d fuel aliased k then
            let (known, now) ← (take key taken : Except DecodeError _)
            taken := now
            if !known then
              if key.isNone then throw .malformed
              let _ ← anyAt d fuel aliased v
        modify fun s => { s with taken := taken }
        if let some m := merged then
          merge d (anyAt d fuel aliased) (fun i => do let _ ← anyAt d fuel aliased i)
            (es.map (·.1)) m
        return some none
    | .alias _ _ _ => throw .malformed

/-! ## Settings -/

inductive Field where
  | passes
  | maxRounds
  | onLimit
  | verify
deriving DecidableEq

def Field.name : Field → String
  | passes => "passes"
  | maxRounds => "max_rounds"
  | onLimit => "on_limit"
  | verify => "verify"

def Field.ofName? (name : List UInt8) : Option Field :=
  [passes, maxRounds, onLimit, verify].find? fun f => Text.bytesOf f.name == name

/-- Sets a field to what a node says. -/
def Field.set (d : Document) (aliased : Bool) (v : Node) : Field → Decoding Unit
  | passes => do
    if let some x ← textsAt d aliased v then
      modify fun s => { s with draft := { s.draft with passes := x } }
  | maxRounds => do
    if let some x ← intAt d aliased v then
      modify fun s => { s with draft := { s.draft with maxRounds := x } }
  | onLimit => do
    if let some x ← textAt d aliased v .policy then
      modify fun s => { s with draft := { s.draft with onLimit := x } }
  | verify => do
    if let some x ← boolAt d aliased v then
      modify fun s => { s with draft := { s.draft with verify := x } }

/-- Decodes an entry of the settings, with the fields set before it in its mapping. -/
def entry (d : Document) (aliased : Bool) (done : List Field) (k v : Node) :
    Decoding (List Field) := do
  match ← textAt d aliased k .string with
  | none => return done
  | some name =>
    let (known, taken) ← (take (some (.text name)) (← get).taken : Except DecodeError _)
    modify fun s => { s with taken := taken }
    if known then return done
    else match Field.ofName? name with
      | none => do
        report [.unknownField (lineOf k) name]
        return done
      | some f =>
        if done.contains f then do
          report [.repeatedField (lineOf k) f.name]
          return done
        else do
          f.set d aliased v
          return f :: done

/-- Decodes a node as settings, with all that is merged into it, at most `fuel`
mappings deep. A mapping merged into itself has no end and is malformed. -/
def settingsAt (d : Document) : Nat → Bool → Node → Decoding Unit
  | 0, _, _ => throw .malformed
  | fuel + 1, aliased, n => do
    let (n, aliased) ← enter d aliased n
    match n with
    | .mapping _ _ es =>
      match repeatedKeys (es.map (·.1)) with
      | p :: ps => report (p :: ps)
      | [] =>
        let (entries, merged) := splitMerge es
        let mut done : List Field := []
        for (k, v) in entries do
          done ← entry d aliased done k v
        if let some m := merged then
          merge d (anyAt d fuel aliased) (settingsAt d fuel aliased) (es.map (·.1)) m
    | .scalar _ tag s =>
      let (r, _) ← require (scalarOf? tag s)
      if r ≠ .null then report [mismatch n .settings]
    | n => report [mismatch n .settings]

def document (d : Document) (fuel : Nat) : Decoding Unit := do
  visit false
  settingsAt d fuel false d.root

end Decode

/-- The draft of settings that a text gives. -/
def Settings.decode (text : String) : Except DecodeError Draft :=
  match Yaml.firstDocument text with
  | none => .error .malformed
  | some none => .ok Settings.default.draft
  | some (some d) =>
    match (Decode.document d (2 * text.length + 8)).run { draft := Settings.default.draft } with
    | .error e => .error e
    | .ok (_, s) => if s.problems.isEmpty then .ok s.draft else .error (.problems s.problems)

/-- The valid settings that a text gives. -/
def Settings.ofText (text : String) : Except DecodeError Settings := do
  let draft ← Settings.decode text
  draft.settings.mapError .invalid

end FlowGraph
