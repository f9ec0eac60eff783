import FlowGraph.Yaml.Resolve
import FlowGraph.Yaml.Token

/-!
The tree of a YAML document. Every node has the line it starts on and a tag:
the one written, or the one its form gives it. An alias names its anchor by a
number, because a node may hold an alias of itself.
-/

namespace FlowGraph.Yaml

/-! ## Nodes -/

inductive Node where
  | scalar (line : Nat) (tag text : String)
  | sequence (line : Nat) (tag : String) (items : List Node)
  | mapping (line : Nat) (tag : String) (entries : List (Node × Node))
  | alias (line : Nat) (name : String) (anchor : Nat)

/-- A document: its root, and the anchored nodes by number. -/
structure Document where
  root : Node
  anchored : List (Nat × Node)

structure Reading where
  tokens : List Token
  handles : List (String × String)
  -- the number of each anchor, the last of a name first
  anchors : List (String × Nat) := []
  -- the anchored nodes read to their end
  anchored : List (Nat × Node) := []
  nextAnchor : Nat := 0

/-- What stands before a node: an anchor with its number, and a tag. -/
structure Properties where
  -- the line of the first property, or of the node
  line : Nat
  anchor : Option Nat := none
  tag : String := ""

def shortTag (tag : String) : String :=
  if tag.startsWith "tag:yaml.org,2002:" then "!!" ++ String.ofList (tag.toList.drop 18) else tag

/-- The tag of a node: the one written, unless it is the one that says nothing. -/
def Properties.tagOr (p : Properties) (usual : String) : String :=
  if p.tag = "" ∨ p.tag = "!" then usual else shortTag p.tag

namespace Reading

def peek (r : Reading) : Option Token := r.tokens.head?

def kind (r : Reading) : Option TokenKind := r.peek.map (·.kind)

def drop (r : Reading) : Reading := { r with tokens := r.tokens.tail }

/-- The scalar that stands for a missing node. -/
def missing (line : Nat) : Node := .scalar line "!!null" ""

/-! ## Properties -/

/-- The tag of a handle and the rest of it, with the handle's meaning put in. -/
def expandTag (r : Reading) (handle suffix : String) : Option String :=
  if handle = "" then some suffix
  else ((r.handles.lookup handle).map (· ++ suffix)).filter (· ≠ "")

/-- The reading with an anchor of a name. -/
def setAnchor (r : Reading) (name : String) (p : Properties) : Reading × Properties :=
  ({ r with anchors := (name, r.nextAnchor) :: r.anchors, nextAnchor := r.nextAnchor + 1 },
    { p with anchor := some r.nextAnchor })

/-- The anchor and the tag before a node, in either order. -/
def properties (r : Reading) : Option (Reading × Properties) := do
  let first ← r.peek
  let p : Properties := { line := first.line }
  match first.kind with
  | .anchor name =>
    let (r, p) := r.drop.setAnchor name p
    match r.kind with
    | some (.tag handle suffix) => return (r.drop, { p with tag := ← r.expandTag handle suffix })
    | _ => return (r, p)
  | .tag handle suffix =>
    let p := { p with tag := ← r.expandTag handle suffix }
    let r := r.drop
    match r.kind with
    | some (.anchor name) => return r.drop.setAnchor name p
    | _ => return (r, p)
  | _ => return (r, p)

/-- A node read to its end, kept under the number of its anchor. -/
def finish (r : Reading) (p : Properties) (n : Node) : Reading × Node :=
  match p.anchor with
  | none => (r, n)
  | some a => ({ r with anchored := (a, n) :: r.anchored }, n)

/-- The tag that a scalar has if none is written. -/
def usualTag (plain : Bool) (text : String) : String :=
  if !plain then "!!str" else if text = "<<" then "!!merge" else (resolve text).tag

/-! ## Nodes -/

/-- The kinds of token that end an item of a block sequence in a mapping's place. -/
def endsInner : TokenKind → Bool
  | .key | .value | .blockEnd => true
  | _ => false

/-- The parts of a document that are read one inside the other. -/
inductive Part where
  -- a block may start it, and maybe a sequence that is not indented
  | node (block unindented : Bool)
  | blockItems
  -- the items of a sequence that is not indented
  | unindentedItems
  | flowItems (first : Bool)
  | blockEntries
  | flowEntries (first : Bool)
  -- the one entry of a mapping without braces inside a sequence in brackets
  | pair

/-- What is read of a part: the node, or the items or entries that are left. -/
structure Piece where
  node : Node := missing 0
  items : List Node := []
  entries : List (Node × Node) := []

/-- Reads a part of a document, at most `fuel` deep. -/
def part : Nat → Part → Reading → Option (Reading × Piece)
  | 0, _, _ => none
  | fuel + 1, what, r =>
    let node (block unindented : Bool) (r : Reading) : Option (Reading × Node) :=
      (part fuel (.node block unindented) r).map fun (r, p) => (r, p.node)
    let unlessAt (ends : TokenKind → Bool) (line : Nat) (block unindented : Bool) (r : Reading) :
        Option (Reading × Node) := do
      let k ← r.kind
      if ends k then return (r, missing line) else node block unindented r
    match what with
    | .node block unindented => do
      let first ← r.peek
      if let .alias name := first.kind then
        let a ← r.anchors.lookup name
        return (r.drop, { node := .alias first.line name a })
      let (r, p) ← r.properties
      let token ← r.peek
      let sequenceOf (what : Part) (r : Reading) : Option (Reading × Piece) := do
        let (r, piece) ← part fuel what r
        let (r, n) := r.finish p (.sequence p.line (p.tagOr "!!seq") piece.items)
        return (r, { node := n })
      let mappingOf (what : Part) (r : Reading) : Option (Reading × Piece) := do
        let (r, piece) ← part fuel what r
        let (r, n) := r.finish p (.mapping p.line (p.tagOr "!!map") piece.entries)
        return (r, { node := n })
      let scalarOf (plain : Bool) (text : String) (r : Reading) : Reading × Piece :=
        let (r, n) := r.finish p (.scalar p.line (p.tagOr (usualTag plain text)) text)
        (r, { node := n })
      match token.kind with
      | .blockEntry =>
        if unindented then sequenceOf .unindentedItems r
        else if p.anchor.isSome || p.tag ≠ "" then return scalarOf true "" r
        else none
      | .scalar plain text => return scalarOf plain text r.drop
      | .openSequence => sequenceOf (.flowItems true) r.drop
      | .openMapping => mappingOf (.flowEntries true) r.drop
      | .blockSequence =>
        if block then sequenceOf .blockItems r.drop
        else if p.anchor.isSome || p.tag ≠ "" then return scalarOf true "" r
        else none
      | .blockMapping =>
        if block then mappingOf .blockEntries r.drop
        else if p.anchor.isSome || p.tag ≠ "" then return scalarOf true "" r
        else none
      | _ => if p.anchor.isSome || p.tag ≠ "" then return scalarOf true "" r else none
    | .blockItems => do
      let token ← r.peek
      match token.kind with
      | .blockEntry =>
        let ends : TokenKind → Bool := fun k => k == .blockEntry || k == .blockEnd
        let (r, n) ← unlessAt ends token.line true false r.drop
        let (r, rest) ← part fuel .blockItems r
        return (r, { items := n :: rest.items })
      | .blockEnd => return (r.drop, {})
      | _ => none
    | .unindentedItems => do
      let token ← r.peek
      match token.kind with
      | .blockEntry =>
        let ends : TokenKind → Bool := fun k => k == .blockEntry || endsInner k
        let (r, n) ← unlessAt ends token.line true false r.drop
        let (r, rest) ← part fuel .unindentedItems r
        return (r, { items := n :: rest.items })
      | _ => return (r, {})
    | .blockEntries => do
      let token ← r.peek
      match token.kind with
      | .key =>
        let (r, k) ← unlessAt endsInner token.line true true r.drop
        let next ← r.peek
        let (r, v) ←
          if next.kind == .value then unlessAt endsInner next.line true true r.drop
          else some (r, missing next.line)
        let (r, rest) ← part fuel .blockEntries r
        return (r, { entries := (k, v) :: rest.entries })
      | .blockEnd => return (r.drop, {})
      | _ => none
    | .flowItems first => do
      let k ← r.kind
      if k == .closeSequence then return (r.drop, {})
      guard (first || k == .flowEntry)
      let r := if first then r else r.drop
      let k ← r.kind
      if k == .closeSequence then return (r.drop, {})
      let (r, n) ←
        if k == .key then (part fuel .pair r).map fun (r, p) => (r, p.node)
        else node false false r
      let (r, rest) ← part fuel (.flowItems false) r
      return (r, { items := n :: rest.items })
    | .pair => do
      let key ← r.peek
      let r := r.drop
      let next ← r.peek
      let ends : TokenKind → Bool := fun k => k == .flowEntry || k == .closeSequence
      let (r, k) ←
        if next.kind == .value || ends next.kind then some (r.drop, missing next.line)
        else node false false r
      let next ← r.peek
      let (r, v) ←
        if next.kind == .value then unlessAt ends next.line false false r.drop
        else some (r, missing next.line)
      return (r, { node := .mapping key.line "!!map" [(k, v)] })
    | .flowEntries first => do
      let k ← r.kind
      if k == .closeMapping then return (r.drop, {})
      guard (first || k == .flowEntry)
      let r := if first then r else r.drop
      let token ← r.peek
      if token.kind == .closeMapping then return (r.drop, {})
      let ends : TokenKind → Bool := fun k => k == .flowEntry || k == .closeMapping
      let (r, k, v) ←
        if token.kind == .key then do
          let r := r.drop
          let first ← r.peek
          let (r, k) ← unlessAt (fun k => k == .value || ends k) first.line false false r
          let next ← r.peek
          let (r, v) ←
            if next.kind == .value then unlessAt ends next.line false false r.drop
            else some (r, missing next.line)
          some (r, k, v)
        else do
          let (r, k) ← node false false r
          let next ← r.peek
          some (r, k, missing next.line)
      let (r, rest) ← part fuel (.flowEntries false) r
      return (r, { entries := (k, v) :: rest.entries })

/-! ## Documents -/

/-- The directives before a document, with the version at most once and each
handle at most once. Only version 1.1 is read. -/
def directives : List Token → Bool → List (String × String) →
    Option (List Token × List (String × String))
  | t :: ts, versioned, handles =>
    match t.kind with
    | .version major minor =>
      if versioned || major != 1 || minor != 1 then none else directives ts true handles
    | .tagHandle h x =>
      if (handles.lookup h).isSome then none else directives ts versioned (handles ++ [(h, x)])
    | _ => some (t :: ts, handles)
  | [], _, _ => none

/-- The meaning of the handles that need no directive. -/
def usualHandles : List (String × String) := [("!", "!"), ("!!", "tag:yaml.org,2002:")]

/-- The token cannot be part of the content of a document. -/
def endsDocument : TokenKind → Bool
  | .version _ _ | .tagHandle _ _ | .documentStart | .documentEnd | .streamEnd => true
  | _ => false

/-- The root of a document. What follows it is not read, but something must. -/
def root (r : Reading) : Option Document := do
  let (r, p) ← part (4 * r.tokens.length + 8) (.node true false) r
  let _ ← r.peek
  return { root := p.node, anchored := r.anchored }

/-- The first document of a list of tokens. An empty text has none, which is
the inner `none`. -/
def first (ts : List Token) : Option (Option Document) := do
  let t ← ts.head?
  match t.kind with
  | .streamEnd => return none
  | .version _ _ | .tagHandle _ _ | .documentStart => do
    let (ts, handles) ← directives ts false []
    let start ← ts.head?
    guard (start.kind == .documentStart)
    let next ← ts.tail.head?
    if endsDocument next.kind then
      return some { root := missing next.line, anchored := [] }
    else return some (← root { tokens := ts.tail, handles := handles ++ usualHandles })
  | _ => return some (← root { tokens := ts, handles := usualHandles })

end Reading

/-- The first document of a text. The outer `none` is a malformed text, the
inner one a text without a document. -/
def firstDocument (text : String) : Option (Option Document) := Reading.first (tokensOf text)

end FlowGraph.Yaml
