import FlowGraph.Text.Quoted

/-!
Bytes read as text. Bytes that are no text have parts that are no characters:
a message shows such a byte by its number, and plain text shows a mark for it.
-/

namespace FlowGraph.Text

def bytesOf (s : String) : List UInt8 := s.toUTF8.data.toList

/-- The text of bytes that are one. -/
def ofBytes? (bytes : List UInt8) : Option String := String.fromUTF8? (ByteArray.mk bytes.toArray)

/-- A part of bytes read as text. -/
inductive Letter where
  | char (c : Char)
  -- a byte that starts no character
  | stray (b : UInt8)
deriving DecidableEq

/-- The number of bytes of a character that starts with this one. -/
def widthFrom (b : UInt8) : Nat :=
  if b < 0x80 then 1 else if b < 0xe0 then 2 else if b < 0xf0 then 3 else 4

/-- The character that a list of bytes starts with, and the number of its bytes. -/
def firstChar? (bytes : List UInt8) : Option (Char × Nat) := do
  let width := widthFrom (← bytes.head?)
  let s ← ofBytes? (bytes.take width)
  return (← s.toList.head?, width)

/-- Bytes read as text, with the bytes that belong to a character already read left out. -/
def lettersFrom : Nat → List UInt8 → List Letter
  | _, [] => []
  | skip + 1, _ :: rest => lettersFrom skip rest
  | 0, b :: rest =>
    match firstChar? (b :: rest) with
    | some (c, width) => .char c :: lettersFrom (width - 1) rest
    | none => .stray b :: lettersFrom 0 rest

def letters (bytes : List UInt8) : List Letter := lettersFrom 0 bytes

/-- Bytes in double quotes. -/
def quotedBytes (bytes : List UInt8) : String :=
  let one : Letter → String
    | .char c => escapeChar '"' c
    | .stray b => "\\x" ++ hexPadded 2 b.toNat
  "\"" ++ String.join ((letters bytes).map one) ++ "\""

/-- Bytes as text, with a mark for each byte that is no part of it. -/
def markedText (bytes : List UInt8) : String :=
  let one : Letter → Char
    | .char c => c
    | .stray _ => '\uFFFD'
  String.ofList ((letters bytes).map one)

end FlowGraph.Text
