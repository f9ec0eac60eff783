/-!
A place in a YAML text: what is left of it, and the line and column reached.
-/

namespace FlowGraph.Yaml

/-! ## Characters -/

/-- A space or a tab. -/
def isBlank (c : Char) : Bool := c == ' ' || c == '\t'

/-- A character that ends a line. -/
def isBreak (c : Char) : Bool :=
  c == '\r' || c == '\n' || c == '\u0085' || c == '\u2028' || c == '\u2029'

/-- A character of an anchor or of the first part of a tag. -/
def isWordChar (c : Char) : Bool := c.isAlphanum || c == '_' || c == '-'

/-- A character that may stand in a text. Most control characters may not. -/
def isAllowed (c : Char) : Bool :=
  let n := c.toNat
  n == 0x09 || n == 0x0a || n == 0x0d || (0x20 ≤ n && n ≤ 0x7e) || n == 0x85
    || (0xa0 ≤ n && n ≤ 0xfffd) || 0x10000 ≤ n

/-! ## Cursors -/

structure Cursor where
  rest : List Char
  -- the line, counted from zero
  line : Nat := 0
  column : Nat := 0
  -- the number of characters passed
  index : Nat := 0

namespace Cursor

def next? (c : Cursor) : Option Char := c.rest.head?

def sees (c : Cursor) (ch : Char) : Bool := c.next? == some ch

def isEnd (c : Cursor) : Bool := c.rest.isEmpty

/-- A line ends here. -/
def atBreak (c : Cursor) : Bool := (c.next?.map isBreak).getD false

/-- A space or a tab is next. -/
def atBlank (c : Cursor) : Bool := (c.next?.map isBlank).getD false

/-- The list starts with a blank or a line end, or is empty. -/
def blankOrEnd : List Char → Bool
  | [] => true
  | c :: _ => isBlank c || isBreak c

/-- The list starts with a line end, or is empty. -/
def breakOrEnd : List Char → Bool
  | [] => true
  | c :: _ => isBreak c

/-- The cursor `n` characters on, in the same line. -/
def skip (c : Cursor) (n : Nat) : Cursor :=
  { c with rest := c.rest.drop n, column := c.column + n, index := c.index + n }

/-- The cursor after the characters that satisfy `p`, in the same line. -/
def skipWhile (c : Cursor) (p : Char → Bool) : Cursor := c.skip (c.rest.takeWhile p).length

/-- The cursor after the rest of the line. -/
def skipToBreak (c : Cursor) : Cursor := c.skipWhile (fun ch => !isBreak ch)

/-- The cursor after a line end, and the line end as it is kept in a scalar. Two
of the line ends are kept as they are, and all others become one newline. -/
def newline (c : Cursor) : Cursor × List Char :=
  let go (n : Nat) (kept : Char) : Cursor × List Char :=
    ({ rest := c.rest.drop n, line := c.line + 1, column := 0, index := c.index + n }, [kept])
  match c.rest with
  | '\r' :: '\n' :: _ => go 2 '\n'
  | ch :: _ =>
    if ch == '\u2028' || ch == '\u2029' then go 1 ch
    else if isBreak ch then go 1 '\n'
    else (c, [])
  | [] => (c, [])

/-- A document marker of three characters `ch` stands at the start of this line. -/
def atMarker (c : Cursor) (ch : Char) : Bool :=
  c.column == 0 && c.rest.take 3 == [ch, ch, ch] && blankOrEnd (c.rest.drop 3)

/-- A document starts or ends here. -/
def atDocument (c : Cursor) : Bool := c.atMarker '-' || c.atMarker '.'

end Cursor

end FlowGraph.Yaml
