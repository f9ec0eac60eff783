import FlowGraph.Text.Bytes
import FlowGraph.Yaml.Scalar

/-!
The tokens of a YAML text. Blocks are told by indentation: a token that opens
a block is put in where the block starts, and one that closes it where the
indentation falls back. A key is known only when its colon is met, so the
place of every token that may be a key is kept until then.
-/

namespace FlowGraph.Yaml

/-! ## Tokens -/

inductive TokenKind where
  | streamEnd
  | version (major minor : Nat)
  | tagHandle (handle expansion : String)
  | documentStart
  | documentEnd
  | blockSequence
  | blockMapping
  | blockEnd
  | openSequence
  | closeSequence
  | openMapping
  | closeMapping
  | blockEntry
  | flowEntry
  | key
  | value
  | alias (name : String)
  | anchor (name : String)
  | tag (handle suffix : String)
  | scalar (plain : Bool) (text : String)
deriving DecidableEq

/-- A token and the line it starts on, counted from one. -/
structure Token where
  kind : TokenKind
  line : Nat
deriving DecidableEq

/-- The place of a token that may turn out to be a key. -/
structure KeyPlace where
  -- a key may still turn up there
  possible : Bool := false
  -- a key must stand there
  required : Bool := false
  token : Nat := 0
  line : Nat := 0
  column : Nat := 0
  -- the number of characters before the token
  index : Nat := 0

/-- The state of cutting a text into tokens. -/
structure Scan where
  cursor : Cursor
  -- the text goes on after what is left of it here, with a character that may not stand in it
  cut : Bool := false
  -- the first character of every line is passed over
  markedLines : Bool := false
  tokens : List Token := []
  -- how many of the tokens are given out
  given : Nat := 0
  indent : Int := -1
  -- the columns of the blocks around the innermost
  outer : List Int := []
  -- the place of the last possible key, in the innermost brackets first
  keys : List KeyPlace := [{}]
  -- the tokens that wait for a key to be decided, with the number of brackets around it
  held : List (Nat × Nat) := []
  keyAllowed : Bool := true

namespace Scan

/-- Brackets are open. -/
def inFlow (s : Scan) : Bool := s.keys.length > 1

def push (s : Scan) (kind : TokenKind) (line : Nat) : Scan :=
  { s with tokens := s.tokens ++ [{ kind := kind, line := line + 1 }] }

/-- The scan with a token put before token `n`, or at the end if that one is given out. -/
def insert (s : Scan) (n : Nat) (kind : TokenKind) (line : Nat) : Scan :=
  let place := if n < s.given then s.tokens.length else n
  { s with tokens := s.tokens.insertIdx place { kind := kind, line := line + 1 } }

/-! ## Blocks and keys -/

/-- The scan with a block opened at a column, if it is deeper than the one it is in. -/
def openBlock (s : Scan) (column : Nat) (place : Nat) (kind : TokenKind) (line : Nat) : Scan :=
  if !s.inFlow && s.indent < column then
    { s.insert place kind line with indent := column, outer := s.indent :: s.outer }
  else s

/-- The scan with all blocks closed that are deeper than a column. -/
def closeBlocks (column : Int) : Nat → Scan → Scan
  | 0, s => s
  | fuel + 1, s =>
    if s.inFlow || s.indent ≤ column then s
    else
      closeBlocks column fuel
        { s.push .blockEnd s.cursor.line with indent := s.outer.headD (-1), outer := s.outer.tail }

/-- The scan with all blocks closed that are deeper than a column. -/
def closeTo (s : Scan) (column : Int) : Scan := closeBlocks column (s.outer.length + 1) s

/-- The scan with nothing waiting for token `n`. -/
def letGo (s : Scan) (n : Nat) : Scan := { s with held := s.held.filter (fun h => h.1 ≠ n) }

/-- The possible key given up. One that is required is missed. -/
def dropKey (s : Scan) : Option Scan :=
  match s.keys with
  | k :: rest =>
    if !k.possible then some s
    else if k.required then none
    else some ({ s with keys := { k with possible := false } :: rest }.letGo k.token)
  | [] => some s

def nextPlace (s : Scan) (possible : Bool) : KeyPlace where
  possible := possible
  required := possible && !s.inFlow && s.indent == s.cursor.column
  token := s.tokens.length
  line := s.cursor.line
  column := s.cursor.column
  index := s.cursor.index

/-- The place of the next token kept as that of a possible key, if one may stand here. -/
def saveKey (s : Scan) : Option Scan :=
  if !s.keyAllowed then some s
  else s.dropKey.map fun s =>
    { s with
      keys := s.nextPlace true :: s.keys.tail
      held := (s.tokens.length, s.keys.length - 1) :: (s.letGo s.tokens.length).held }

/-- The possible key is out of reach: a key ends on its line, within 1024 characters. -/
def outOfReach (s : Scan) (k : KeyPlace) : Bool :=
  k.line < s.cursor.line || k.index + 1024 < s.cursor.index

/-- The tokens that can be given out are given out. A token waits until the two
after it are there, and until it is known that no key stands there. The flag
says that no required key was missed. -/
def giveOut : Nat → Scan → Scan × Bool
  | 0, s => (s, true)
  | fuel + 1, s =>
    let give := giveOut fuel { s with given := s.given + 1 }
    if s.tokens.length < s.given + 3 then (s, true)
    else match s.held.lookup s.given with
      | none => give
      | some level =>
        let place := s.keys.length - 1 - level
        match s.keys[place]? with
        | none => give
        | some k =>
          if !k.possible then give
          else if !s.outOfReach k then (s, true)
          else if k.required then (s, false)
          else
            giveOut fuel { s with
              given := s.given + 1, keys := s.keys.set place { k with possible := false } }

/-! ## Directives and tags -/

/-- The number at a cursor, of two digits at most. -/
def versionNumber (c : Cursor) : Option (Cursor × Nat) :=
  let digits := c.rest.takeWhile Char.isDigit
  if digits.isEmpty ∨ digits.length > 2 then none
  else
    some (c.skip digits.length, digits.foldl (fun n d => 10 * n + (d.toNat - '0'.toNat)) 0)

/-- The character may stand in a tag. -/
def isTagChar (c : Char) : Bool :=
  isWordChar c || [';', '/', '?', ':', '@', '&', '=', '+', '$', ',', '.', '!', '~', '*', '\'', '(',
    ')', '[', ']'].contains c

/-- The bytes of a run of escapes, each a percent sign and two hexadecimal digits. -/
def percentBytes : List Char → List UInt8
  | '%' :: a :: b :: rest =>
    match hexValue? a, hexValue? b with
    | some x, some y => UInt8.ofNat (16 * x + y) :: percentBytes rest
    | _, _ => []
  | _ => []

/-- The characters of a tag. Escapes stand for the bytes of a text. -/
def tagText : Nat → Cursor → String → Option (Cursor × String)
  | 0, c, s => some (c, s)
  | fuel + 1, c, s =>
    match c.next? with
    | none => some (c, s)
    | some ch =>
      if ch == '%' then
        let bytes := percentBytes c.rest
        if bytes.isEmpty then none
        else match Text.ofBytes? bytes with
          | none => none
          | some t => tagText fuel (c.skip (3 * bytes.length)) (s ++ t)
      else if isTagChar ch then tagText fuel (c.skip 1) (s.push ch)
      else some (c, s)

/-- The first part of a tag: an exclamation mark, word characters, and maybe
another exclamation mark. -/
def tagHandleAt (c : Cursor) : Option (Cursor × String) :=
  if !c.sees '!' then none
  else
    let word := (c.rest.drop 1).takeWhile isWordChar
    let c := c.skip (word.length + 1)
    let s := String.ofList ('!' :: word)
    some (if c.sees '!' then (c.skip 1, s.push '!') else (c, s))

/-- The tag at a cursor in its full form, between angle brackets. -/
def fullTagAt (c : Cursor) : Option (Cursor × String × String) := do
  let (c, suffix) ← tagText (c.rest.length + 1) (c.skip 2) ""
  guard (suffix != "" && c.sees '>')
  return (c.skip 1, "", suffix)

/-- The tag at a cursor in its short form: its handle and the rest. -/
def shortTagAt (c : Cursor) : Option (Cursor × String × String) := do
  let (c, handle) ← tagHandleAt c
  if handle.length > 1 && handle.endsWith "!" then
    let (c, suffix) ← tagText (c.rest.length + 1) c ""
    guard (suffix != "")
    return (c, handle, suffix)
  else
    let (c, suffix) ← tagText (c.rest.length + 1) c (String.ofList handle.toList.tail)
    return if suffix == "" then (c, "", "!") else (c, "!", suffix)

/-- The tag at a cursor, up to a blank or a line end. -/
def tagAt (c : Cursor) : Option (Cursor × String × String) :=
  let found := if c.rest.take 2 == ['!', '<'] then fullTagAt c else shortTagAt c
  found.filter fun (c, _, _) => Cursor.blankOrEnd c.rest

/-- The rest of a directive line: blanks, maybe a comment, and the line end. -/
def directiveEnd (c : Cursor) : Option Cursor :=
  let c := c.skipWhile isBlank
  let c := if c.sees '#' then c.skipToBreak else c
  if Cursor.breakOrEnd c.rest then some c.newline.1 else none

def directiveAt (c : Cursor) : Option (Cursor × TokenKind) := do
  let c := c.skip 1
  let name := String.ofList (c.rest.takeWhile isWordChar)
  let c := c.skip name.length
  guard (name != "" && Cursor.blankOrEnd c.rest)
  let c := c.skipWhile isBlank
  if name == "YAML" then
    let (c, major) ← versionNumber c
    guard (c.sees '.')
    let (c, minor) ← versionNumber (c.skip 1)
    return (← directiveEnd c, .version major minor)
  else if name == "TAG" then
    let (c, handle) ← tagHandleAt c
    guard ((handle == "!" || (handle.length > 1 && handle.endsWith "!")) && c.atBlank)
    let c := c.skipWhile isBlank
    let (c, expansion) ← tagText (c.rest.length + 1) c ""
    guard (expansion != "" && Cursor.blankOrEnd c.rest)
    return (← directiveEnd c, .tagHandle handle expansion)
  else none

/-! ## Between tokens -/

/-- A blank or a line end of one byte. -/
def isPlainGap (c : Char) : Bool := c == ' ' || c == '\t' || c == '\r' || c == '\n'

/-- The cursor after a comment. Comments on the lines after it are passed with
it, whatever blanks stand before them, if the gap is of plain blanks and line
ends and less than 512 characters long. -/
def skipComments : Nat → Cursor → Cursor
  | 0, c => c
  | fuel + 1, c =>
    let c := c.skipToBreak
    let gap := c.rest.takeWhile isPlainGap
    if gap.length < 512 && (c.rest.drop gap.length).head? == some '#' then
      match gapAt 0 (c.rest.length + 1) c {} with
      | some (c, _) => skipComments fuel c
      | none => c
    else c

/-- The scan at the next token. A tab may stand before it unless a key may. -/
def skipGap : Nat → Scan → Scan
  | 0, s => s
  | fuel + 1, s =>
    let c := if s.markedLines && s.cursor.column == 0 then s.cursor.skip 1 else s.cursor
    let c := c.skipWhile fun ch => ch == ' ' || ((s.inFlow || !s.keyAllowed) && ch == '\t')
    let c := if c.sees '#' then skipComments (c.rest.length + 1) c else c
    if c.atBreak then
      skipGap fuel { s with cursor := c.newline.1, keyAllowed := s.keyAllowed || !s.inFlow }
    else { s with cursor := c }

/-- The last token is a scalar that took the end of its last line with it. A key
may follow it, as after any line end. -/
def tookLineEnd (s : Scan) : Bool :=
  match s.tokens.getLast?.map Token.kind with
  | some (.scalar _ _) => s.keyAllowed
  | _ => false

/-- The scan after a comment on the line where the last token ends. -/
def skipLineComment (s : Scan) : Scan :=
  let gap := s.cursor.rest.takeWhile isBlank
  let c := s.cursor.skip gap.length
  if !s.tookLineEnd && gap.length < 512 && c.sees '#' then { s with cursor := c.skipToBreak } else s

/-! ## One token -/

/-- The scan with a token of `n` characters. -/
def mark (s : Scan) (n : Nat) (kind : TokenKind) : Scan :=
  { s.push kind s.cursor.line with cursor := s.cursor.skip n }

def openBrackets (s : Scan) (kind : TokenKind) : Option Scan := do
  let s ← s.saveKey
  return { s with keys := s.nextPlace false :: s.keys, keyAllowed := true }.mark 1 kind

def closeBrackets (s : Scan) (kind : TokenKind) : Option Scan := do
  let s ← s.dropKey
  let s := match s.keys with
    | k :: outer :: rest => { s.letGo k.token with keys := outer :: rest }
    | _ => s
  return { s with keyAllowed := false }.mark 1 kind

/-- The mark of a block entry. -/
def blockEntry (s : Scan) : Option Scan := do
  guard (s.inFlow || s.keyAllowed)
  let s := s.openBlock s.cursor.column s.tokens.length .blockSequence s.cursor.line
  let s ← s.dropKey
  return { s with keyAllowed := true }.mark 1 .blockEntry

/-- The mark of a key that is not simple. -/
def keyMark (s : Scan) : Option Scan := do
  guard (s.inFlow || s.keyAllowed)
  let s := s.openBlock s.cursor.column s.tokens.length .blockMapping s.cursor.line
  let s ← s.dropKey
  return { s with keyAllowed := !s.inFlow }.mark 1 .key

/-- The mark of a value. What stands before it on its line is the key, if it may be. -/
def valueMark (s : Scan) : Option Scan :=
  match s.keys with
  | k :: rest =>
    let undone := { s with keys := { k with possible := false } :: rest }
    if !k.possible then complex s
    else if s.outOfReach k then if k.required then none else complex undone
    else
      let s := (undone.insert k.token .key k.line).letGo k.token
      let s := s.openBlock k.column k.token .blockMapping k.line
      some ({ s with keyAllowed := false }.mark 1 .value)
  | [] => complex s
where
  /-- A value whose key is not simple, or missing. -/
  complex (s : Scan) : Option Scan := do
    guard (s.inFlow || s.keyAllowed)
    let s := s.openBlock s.cursor.column s.tokens.length .blockMapping s.cursor.line
    return { s with keyAllowed := !s.inFlow }.mark 1 .value

def anchorMark (s : Scan) (kind : String → TokenKind) : Option Scan := do
  let s ← s.saveKey
  let name := (s.cursor.rest.drop 1).takeWhile isWordChar
  let rest := s.cursor.rest.drop (name.length + 1)
  guard (!name.isEmpty)
  guard (Cursor.blankOrEnd rest ||
    ['?', ':', ',', ']', '\x7d', '%', '@', Char.ofNat 0x60].contains (rest.headD ' '))
  return { s with keyAllowed := false }.mark (name.length + 1) (kind (String.ofList name))

def tagMark (s : Scan) : Option Scan := do
  let s ← s.saveKey
  let (c, handle, suffix) ← tagAt s.cursor
  return { s.push (.tag handle suffix) s.cursor.line with cursor := c, keyAllowed := false }

def blockScalarMark (s : Scan) (literal : Bool) : Option Scan := do
  let s ← s.dropKey
  let (c, text) ← blockScalar literal s.indent s.cursor
  return { s.push (.scalar false (String.ofList text)) s.cursor.line with
    cursor := c, keyAllowed := true }

def quotedMark (s : Scan) (single : Bool) : Option Scan := do
  let s ← s.saveKey
  let (c, text) ← quotedScalar single s.cursor
  return { s.push (.scalar false (String.ofList text)) s.cursor.line with
    cursor := c, keyAllowed := false }

def plainMark (s : Scan) : Option Scan := do
  let s ← s.saveKey
  let (c, text, broken) ← plainScalar s.inFlow (s.indent + 1) s.cursor
  return { s.push (.scalar true (String.ofList text)) s.cursor.line with
    cursor := c, keyAllowed := broken }

/-- The end of all blocks, before a mark that no block can hold. -/
def endBlocks (s : Scan) : Option Scan := do
  let s ← (s.closeTo (-1)).dropKey
  return { s with keyAllowed := false }

/-- The character can only start a token that is marked by it. -/
def isIndicator (c : Char) : Bool :=
  ['-', '?', ':', ',', '[', ']', '\x7b', '\x7d', '#', '&', '*', '!', '|', '>', '\'', '"', '%', '@',
    Char.ofNat 0x60].contains c

/-- The token at the cursor, which is not at the end of the text. -/
def token (s : Scan) (c : Char) (rest : List Char) : Option Scan :=
  let blank := Cursor.blankOrEnd rest
  if c == '[' then s.openBrackets .openSequence
  else if c == '\x7b' then s.openBrackets .openMapping
  else if c == ']' then s.closeBrackets .closeSequence
  else if c == '\x7d' then s.closeBrackets .closeMapping
  else if c == ',' then s.dropKey.map fun s => { s with keyAllowed := true }.mark 1 .flowEntry
  else if c == '-' && blank then s.blockEntry
  else if c == '?' && (s.inFlow || blank) then s.keyMark
  else if c == ':' && (s.inFlow || blank) then s.valueMark
  else if c == '*' then s.anchorMark .alias
  else if c == '&' then s.anchorMark .anchor
  else if c == '!' then s.tagMark
  else if c == '|' && !s.inFlow then s.blockScalarMark true
  else if c == '>' && !s.inFlow then s.blockScalarMark false
  else if c == '\'' then s.quotedMark true
  else if c == '"' then s.quotedMark false
  else if !(isBlank c || isIndicator c) || (c == '-' && !blank)
      || (!s.inFlow && (c == '?' || c == ':') && !blank) then s.plainMark
  else none

def next (s : Scan) : Option Scan :=
  let s := skipGap (s.cursor.rest.length + 1) s
  let few := s.cursor.rest.length < 4
  let s := if few then { s with markedLines := s.cursor.sees '\ufeff' } else s
  let s := s.closeTo s.cursor.column
  if s.cut && few then none
  else match s.cursor.rest with
  | [] => do
    let s := if s.cursor.column = 0 then s
      else { s with cursor := { s.cursor with line := s.cursor.line + 1, column := 0 } }
    let s ← s.endBlocks
    return s.push .streamEnd s.cursor.line
  | c :: rest =>
    if s.cursor.column = 0 && c == '%' then do
      let s ← s.endBlocks
      let (cursor, kind) ← directiveAt s.cursor
      return { s.push kind s.cursor.line with cursor := cursor }
    else if s.cursor.atMarker '-' then s.endBlocks.map (·.mark 3 .documentStart)
    else if s.cursor.atMarker '.' then s.endBlocks.map (·.mark 3 .documentEnd)
    else do
      let after ← s.token c rest
      guard (!(s.cut && after.cursor.isEnd))
      return if c == '-' && Cursor.blankOrEnd rest then after else after.skipLineComment

/-- The scan of all that is left, as far as it goes. -/
def run : Nat → Scan → Scan
  | 0, s => s
  | fuel + 1, s =>
    match s.next with
    | none => s
    | some s =>
      let ended := s.tokens.getLast?.map (·.kind) == some .streamEnd
      let s := if ended then (s.push .streamEnd 0).push .streamEnd 0 else s
      match giveOut (s.tokens.length + 1) s with
      | (s, true) => if ended then s else run fuel s
      | (s, false) => s

end Scan

/-! ## Texts -/

/-- The number of characters of a text that are read in one go: those that stand
whole in its first 512 bytes. -/
def chunkLength : Nat → List Char → Nat
  | _, [] => 0
  | room, c :: rest => if c.utf8Size ≤ room then chunkLength (room - c.utf8Size) rest + 1 else 0

/-- The part of a text before the chunk that has a character that may not stand in
it, and whether there is one. -/
def readable : Nat → Nat → List Char → List Char × Bool
  | 0, _, cs => (cs, false)
  | fuel + 1, room, cs =>
    if cs.isEmpty then ([], false)
    else
      let chunk := cs.take (chunkLength room cs)
      if !chunk.all isAllowed then ([], true)
      else
        let (later, bad) := readable fuel 512 (cs.drop chunk.length)
        (chunk ++ later, bad)

/-- The tokens of a text that are given out before it ends or turns out to be
malformed. A mark of the byte order at the start is passed over. -/
def tokensOf (text : String) : List Token :=
  let (chars, room) := match text.toList with
    | '\ufeff' :: rest => (rest, 509)
    | chars => (chars, 512)
  let (chars, cut) := readable (chars.length + 1) room chars
  let s := Scan.run (chars.length + 2)
    { cursor := { rest := chars }, cut := cut, markedLines := chars.head? == some '\ufeff' }
  s.tokens.take s.given

end FlowGraph.Yaml
