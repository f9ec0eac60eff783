import FlowGraph.Double
import FlowGraph.Text.Quoted

/-!
Names, strings and integers in LLVM text. A name of plain characters stands
as it is, any other in quotes, and so does one that could be taken for a
number.
-/

namespace FlowGraph.Llvm

/-! ## Strings -/

def hexByte (b : UInt8) : String := (Text.hexPadded 2 b.toNat).map Char.toUpper

/-- A byte inside quotes. Only printable ASCII stands as it is, and the quote
mark and the backslash do not. -/
def escapeByte (b : UInt8) : String :=
  if 0x20 ≤ b ∧ b ≤ 0x7e ∧ b ≠ 0x22 ∧ b ≠ 0x5c then (Char.ofNat b.toNat).toString
  else "\\" ++ hexByte b

/-- The bytes of a text in quotes. -/
def quotedBytes (s : String) : String :=
  "\"" ++ String.join (s.toUTF8.toList.map escapeByte) ++ "\""

/-! ## Names -/

/-- The character can stand in a name without quotes. -/
def isNameChar (c : Char) : Bool :=
  c.isAlphanum || c == '$' || c == '-' || c == '.' || c == '_'

/-- The number that a text of decimal digits stands for. -/
def decimal? (s : String) : Option Nat :=
  if !s.isEmpty && s.toList.all Char.isDigit then
    some (s.toList.foldl (fun n c => 10 * n + (c.toNat - '0'.toNat)) 0)
  else none

/-- The name reads as a number of 64 bits. -/
def readsAsNumber (s : String) : Bool :=
  ((decimal? s).map (fun n => decide (n < Nat.pow 2 64))).getD false

def nameText (s : String) : String :=
  if readsAsNumber s then "\"" ++ s ++ "\""
  else if s.toList.all isNameChar then s
  else quotedBytes s

/-- The number of a text with a sign or without, if it fits in 64 bits. -/
def signed? (s : String) : Option Int :=
  let n? := match s.toList with
    | '-' :: ds => (decimal? (String.ofList ds)).map (fun n => -(n : Int))
    | '+' :: ds => (decimal? (String.ofList ds)).map (fun n => (n : Int))
    | _ => (decimal? s).map (fun n => (n : Int))
  n?.filter (fun n => Int64.minValue.toInt ≤ n && n ≤ Int64.maxValue.toInt)

/-- The name of a block as a message about it gives it. One that reads as a
number is in quotes, to tell it from a numbered block. -/
def plainName (s : String) : String :=
  match signed? s with
  | some n => "\"" ++ toString n ++ "\""
  | none => s

/-! ## Integers -/

/-- How many different digits a numeral has, and how many it could have. -/
def variety (base n : Nat) : Nat × Nat :=
  let digits := Nat.toDigits base n
  (digits.eraseDups.length, min digits.length base)

/-- The numeral is plainer in base sixteen than in base ten. It has three
different digits at most there, and at most half of the digits it could have.
In base ten the share of different digits is larger by a fifth at least, and
the shares are fractions in double precision. -/
def plainerInHex (n : Nat) : Bool :=
  let (h, hs) := variety 16 n
  let (d, ds) := variety 10 n
  let fifth := Double.round 1 5
  h ≤ 3 && 2 * h ≤ hs
    && Double.atMost (Double.add (Double.round h hs) fifth) (Double.round d ds)

def intText (x : Int64) : String :=
  let n := x.toInt
  if 0x1000 ≤ n ∧ plainerInHex n.toNat then
    "u0x" ++ (String.ofList (Nat.toDigits 16 n.toNat)).map Char.toUpper
  else toString n

end FlowGraph.Llvm
