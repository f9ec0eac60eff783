import FlowGraph.Yaml.Cursor

/-!
The text of scalars: plain, quoted, and block scalars. Lines of a plain or a
quoted scalar are folded into one, and a block scalar keeps or folds its
lines as its header says. Each function gives the text and the place after
it, or nothing if the scalar is malformed.
-/

namespace FlowGraph.Yaml

/-! ## Gaps -/

/-- The blanks and line ends between two parts of a scalar. -/
structure Gap where
  -- the blanks, while no line has ended
  blanks : List Char := []
  first : List Char := []
  -- the line ends after the first
  others : List Char := []
  broken : Bool := false

/-- What stands for the gap in the scalar: the blanks of one line, a space for
one line end, and the further line ends for more. -/
def Gap.joined (g : Gap) : List Char :=
  if !g.broken then g.blanks
  else if g.first.head? == some '\n' then (if g.others.isEmpty then [' '] else g.others)
  else g.first ++ g.others

/-- The gap at a cursor. A tab at the start of a line, left of `indent`, is refused. -/
def gapAt (indent : Int) : Nat → Cursor → Gap → Option (Cursor × Gap)
  | 0, c, g => some (c, g)
  | fuel + 1, c, g =>
    match c.next? with
    | none => some (c, g)
    | some ch =>
      if isBlank ch then
        if g.broken && (c.column : Int) < indent && ch == '\t' then none
        else
          gapAt indent fuel (c.skip 1) (if g.broken then g else { g with blanks := g.blanks ++ [ch] })
      else if isBreak ch then
        let (c, kept) := c.newline
        gapAt indent fuel c
          (if g.broken then { g with others := g.others ++ kept }
           else { g with blanks := [], first := kept, broken := true })
      else some (c, g)

/-! ## Plain scalars -/

/-- The characters that end a plain scalar inside brackets. -/
def isFlowMark (c : Char) : Bool :=
  c == ',' || c == '?' || c == '[' || c == ']' || c == '\x7b' || c == '\x7d'

/-- The part of a plain scalar up to a blank, a line end or a mark that ends it. -/
def plainRun (flow : Bool) : List Char → List Char
  | [] => []
  | c :: rest =>
    if isBlank c || isBreak c then []
    else if c == ':' && Cursor.blankOrEnd rest then []
    else if flow && isFlowMark c then []
    else c :: plainRun flow rest

/-- A plain scalar from a cursor on: the text so far and the gap after it. The
flag of the answer says that it ends after a line end. -/
def plainFrom (flow : Bool) (indent : Int) :
    Nat → Cursor → List Char → Gap → Option (Cursor × List Char × Bool)
  | 0, c, text, gap => some (c, text, gap.broken)
  | fuel + 1, c, text, gap =>
    if c.atDocument || c.sees '#' then some (c, text, gap.broken)
    else
      let run := plainRun flow c.rest
      let text := if run.isEmpty then text else text ++ gap.joined ++ run
      let gap := if run.isEmpty then gap else {}
      let c := c.skip run.length
      if !(c.atBlank || c.atBreak) then some (c, text, gap.broken)
      else match gapAt indent (c.rest.length + 1) c gap with
        | none => none
        | some (c, gap) =>
          if !flow && (c.column : Int) < indent then some (c, text, gap.broken)
          else plainFrom flow indent fuel c text gap

def plainScalar (flow : Bool) (indent : Int) (c : Cursor) : Option (Cursor × List Char × Bool) :=
  plainFrom flow indent (c.rest.length + 1) c [] {}

/-! ## Quoted scalars -/

def hexValue? (c : Char) : Option Nat :=
  if c.isDigit then some (c.toNat - '0'.toNat)
  else if 'a' ≤ c ∧ c ≤ 'f' then some (c.toNat - 'a'.toNat + 10)
  else if 'A' ≤ c ∧ c ≤ 'F' then some (c.toNat - 'A'.toNat + 10)
  else none

/-- The number of `n` hexadecimal digits at the start of a list. -/
def hexNumber? (n : Nat) (cs : List Char) : Option Nat :=
  if cs.length < n then none
  else (cs.take n).foldlM (fun v c => (hexValue? c).map (16 * v + ·)) 0

def charOf? (n : Nat) : Option Char := if n.isValidChar then some (Char.ofNat n) else none

/-- The character that an escape stands for, and the length of the escape after
its backslash. -/
def escape? : List Char → Option (Char × Nat)
  | [] => none
  | c :: rest =>
    let code (n : Nat) : Option (Char × Nat) :=
      ((hexNumber? n rest).bind charOf?).map (·, n + 1)
    match c with
    | '0' => some (Char.ofNat 0, 1)
    | 'a' => some ('\x07', 1)
    | 'b' => some ('\x08', 1)
    | 't' => some ('\t', 1)
    | '\t' => some ('\t', 1)
    | 'n' => some ('\n', 1)
    | 'v' => some ('\x0b', 1)
    | 'f' => some ('\x0c', 1)
    | 'r' => some ('\r', 1)
    | 'e' => some ('\x1b', 1)
    | ' ' => some (' ', 1)
    | '"' => some ('"', 1)
    | '\'' => some ('\'', 1)
    | '\\' => some ('\\', 1)
    | 'N' => some ('\u0085', 1)
    | '_' => some ('\u00a0', 1)
    | 'L' => some ('\u2028', 1)
    | 'P' => some ('\u2029', 1)
    | 'x' => code 2
    | 'u' => code 4
    | 'U' => code 8
    | _ => none

/-- The part of a quoted scalar up to a blank, a line end or the closing quote.
The flag says that an escaped line end stopped it. -/
def quotedRun (single : Bool) : Nat → Cursor → List Char → Option (Cursor × List Char × Bool)
  | 0, c, text => some (c, text, false)
  | fuel + 1, c, text =>
    match c.rest with
    | [] => some (c, text, false)
    | ch :: rest =>
      if isBlank ch || isBreak ch then some (c, text, false)
      else if single then
        if ch == '\'' then
          if rest.head? == some '\'' then quotedRun single fuel (c.skip 2) (text ++ ['\''])
          else some (c, text, false)
        else quotedRun single fuel (c.skip 1) (text ++ [ch])
      else if ch == '"' then some (c, text, false)
      else if ch == '\\' then
        if (rest.head?.map isBreak).getD false then some ((c.skip 1).newline.1, text, true)
        else match escape? rest with
          | none => none
          | some (e, n) => quotedRun single fuel (c.skip (n + 1)) (text ++ [e])
      else quotedRun single fuel (c.skip 1) (text ++ [ch])

/-- A quoted scalar after its opening quote, with the text so far. -/
def quotedFrom (single : Bool) : Nat → Cursor → List Char → Option (Cursor × List Char)
  | 0, _, _ => none
  | fuel + 1, c, text =>
    if c.atDocument || c.isEnd then none
    else match quotedRun single (c.rest.length + 1) c text with
      | none => none
      | some (c, text, escaped) =>
        if c.sees (if single then '\'' else '"') then some (c.skip 1, text)
        else match gapAt 0 (c.rest.length + 1) c { broken := escaped } with
          | none => none
          | some (c, gap) => quotedFrom single fuel c (text ++ gap.joined)

/-- The quoted scalar whose opening quote is at a cursor. -/
def quotedScalar (single : Bool) (c : Cursor) : Option (Cursor × List Char) :=
  quotedFrom single (c.rest.length + 1) (c.skip 1) []

/-! ## Block scalars -/

/-- What becomes of the line ends at the end of a block scalar. -/
inductive Chomping where
  | clip
  | strip
  | keep
deriving DecidableEq

/-- The header of a block scalar after its mark: the chomping, and the
indentation if it is given. -/
def blockHeader (c : Cursor) : Option (Cursor × Chomping × Nat) :=
  let chomping? (c : Cursor) : Option Chomping :=
    if c.sees '+' then some .keep else if c.sees '-' then some .strip else none
  let digit? (c : Cursor) : Option Nat :=
    c.next?.bind (fun ch => if ch.isDigit then some (ch.toNat - '0'.toNat) else none)
  match chomping? c with
  | some k =>
    let c := c.skip 1
    match digit? c with
    | none => some (c, k, 0)
    | some 0 => none
    | some n => some (c.skip 1, k, n)
  | none =>
    match digit? c with
    | none => some (c, .clip, 0)
    | some 0 => none
    | some n =>
      let c := c.skip 1
      match chomping? c with
      | some k => some (c.skip 1, k, n)
      | none => some (c, .clip, n)

/-- The empty lines at a cursor and the indentation after them, with the deepest
column seen. A tab in the indentation is refused. An `indent` of zero is not known yet. -/
def emptyLines (indent : Nat) :
    Nat → Cursor → List Char → Nat → Option (Cursor × List Char × Nat)
  | 0, c, breaks, deepest => some (c, breaks, deepest)
  | fuel + 1, c, breaks, deepest =>
    let spaces := (c.rest.takeWhile (· == ' ')).length
    let c := c.skip (if indent = 0 then spaces else min spaces (indent - c.column))
    let deepest := max deepest c.column
    if (indent = 0 ∨ c.column < indent) ∧ c.sees '\t' then none
    else if c.atBreak then
      let (c, kept) := c.newline
      emptyLines indent fuel c (breaks ++ kept) deepest
    else some (c, breaks, deepest)

structure BlockText where
  text : List Char := []
  lineEnd : List Char := []
  -- the empty lines after the last line
  empties : List Char := []
  blankLine : Bool := false

/-- The text with the line ends before the next line put in. One line end is
folded into a space unless a line beside it starts with a blank. -/
def BlockText.joined (b : BlockText) (literal blankNext : Bool) : List Char :=
  if !literal && !b.blankLine && !blankNext && b.lineEnd.head? == some '\n' then
    b.text ++ (if b.empties.isEmpty then [' '] else []) ++ b.empties
  else b.text ++ b.lineEnd ++ b.empties

/-- The lines of a block scalar that stand at column `indent`. -/
def blockLines (literal : Bool) (indent : Nat) :
    Nat → Cursor → BlockText → Option (Cursor × BlockText)
  | 0, c, b => some (c, b)
  | fuel + 1, c, b =>
    if c.column ≠ indent ∨ c.isEnd then some (c, b)
    else
      let blank := c.atBlank
      let line := c.rest.takeWhile (fun ch => !isBreak ch)
      let (next, kept) := (c.skip line.length).newline
      match emptyLines indent (next.rest.length + 1) next [] 0 with
      | none => none
      | some (next, empties, _) =>
        blockLines literal indent fuel next
          { text := b.joined literal blank ++ line, lineEnd := kept, empties := empties
            blankLine := blank }

/-- The block scalar whose mark is at a cursor, inside a block of the given indentation. -/
def blockScalar (literal : Bool) (outer : Int) (c : Cursor) : Option (Cursor × List Char) := do
  let (c, chomping, increment) ← blockHeader (c.skip 1)
  let c := c.skipWhile isBlank
  let c := if c.sees '#' then c.skipToBreak else c
  guard (Cursor.breakOrEnd c.rest)
  let c := c.newline.1
  let given := if increment = 0 then 0 else (max outer 0).toNat + increment
  let (c, empties, deepest) ← emptyLines given (c.rest.length + 1) c [] 0
  let indent := if given = 0 then max deepest (max (outer + 1).toNat 1) else given
  let (c, b) ← blockLines literal indent (c.rest.length + 1) c { empties := empties }
  let tail := match chomping with
    | .strip => []
    | .clip => b.lineEnd
    | .keep => b.lineEnd ++ b.empties
  return (c, b.text ++ tail)

end FlowGraph.Yaml
