import FlowGraph.Text.Printable

/-!
Quoted text, as messages show a name: the quote mark and the backslash are
escaped, printable characters stand as they are, and all others are written
by a letter or by their number.
-/

namespace FlowGraph.Text

/-- A number in lower-case hexadecimal with at least `width` digits. -/
def hexPadded (width n : Nat) : String :=
  let digits := Nat.toDigits 16 n
  String.ofList (List.replicate (width - digits.length) '0' ++ digits)

/-- The letter that stands for a control character after a backslash. -/
def controlLetter? (c : Nat) : Option Char :=
  match c with
  | 7 => some 'a'
  | 8 => some 'b'
  | 12 => some 'f'
  | 10 => some 'n'
  | 13 => some 'r'
  | 9 => some 't'
  | 11 => some 'v'
  | _ => none

/-- One character inside quotes of the given mark. -/
def escapeChar (mark c : Char) : String :=
  let n := c.toNat
  if c = mark ∨ c = '\\' then "\\" ++ c.toString
  else if isPrintable n then c.toString
  else match controlLetter? n with
    | some l => "\\" ++ l.toString
    | none =>
      if n < 0x20 ∨ n = 0x7f then "\\x" ++ hexPadded 2 n
      else if n < 0x10000 then "\\u" ++ hexPadded 4 n
      else "\\U" ++ hexPadded 8 n

def quoted (s : String) : String :=
  "\"" ++ String.join (s.toList.map (escapeChar '"')) ++ "\""

/-- A byte in single quotes, taken as the character of that number. -/
def quotedByte (b : UInt8) : String :=
  "'" ++ escapeChar '\'' (Char.ofNat b.toNat) ++ "'"

end FlowGraph.Text
