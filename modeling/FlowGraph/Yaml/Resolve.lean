import FlowGraph.Double

/-!
What the text of a plain scalar stands for: nothing, a truth value, a whole
number, a fraction, a date, or just text.
-/

namespace FlowGraph.Yaml

/-! ## Values -/

/-- A number that need not be whole. Finite ones are kept as fractions. -/
inductive Real where
  | finite (num : Int) (den : Nat)
  | infinite (negative : Bool)
  | notANumber
deriving DecidableEq

inductive Resolved where
  | null
  | bool (b : Bool)
  | int (n : Int)
  | float (x : Real)
  | timestamp
  | text
deriving DecidableEq

def Resolved.tag : Resolved → String
  | null => "!!null"
  | bool _ => "!!bool"
  | int _ => "!!int"
  | float _ => "!!float"
  | timestamp => "!!timestamp"
  | text => "!!str"

/-! ## Whole numbers -/

/-- The value of a digit in a base up to sixteen. -/
def digitIn? (base : Nat) (c : Char) : Option Nat :=
  let v :=
    if c.isDigit then c.toNat - '0'.toNat
    else if 'a' ≤ c ∧ c ≤ 'z' then c.toNat - 'a'.toNat + 10
    else if 'A' ≤ c ∧ c ≤ 'Z' then c.toNat - 'A'.toNat + 10
    else 36
  if v < base then some v else none

/-- The number of digits in a base. There must be one at least. -/
def numeral? (base : Nat) (cs : List Char) : Option Nat :=
  if cs.isEmpty then none else cs.foldlM (fun n c => (digitIn? base c).map (base * n + ·)) 0

/-- A number whose base is told by how it starts: a leading zero is octal. -/
def basedNumeral? : List Char → Option Nat
  | '0' :: x :: rest =>
    if x == 'x' || x == 'X' then numeral? 16 rest
    else if x == 'b' || x == 'B' then numeral? 2 rest
    else if x == 'o' || x == 'O' then numeral? 8 rest
    else numeral? 8 (x :: rest)
  | cs => numeral? 10 cs

/-- A whole number with a sign or without. A negative one fits in 64 bits with a
sign, and a positive one in 64 bits without; one written with a plus sign fits with a sign. -/
def wholeNumber? (cs : List Char) : Option Int :=
  match cs with
  | '-' :: ds =>
    (basedNumeral? ds).bind fun n => if n ≤ Nat.pow 2 63 then some (-(n : Int)) else none
  | '+' :: ds => (basedNumeral? ds).bind fun n => if n < Nat.pow 2 63 then some (n : Int) else none
  | ds => (basedNumeral? ds).bind fun n => if n < Nat.pow 2 64 then some (n : Int) else none

/-- A whole number in a base, with a sign or without. -/
def signedNumeral? (base : Nat) (cs : List Char) : Option Int :=
  match cs with
  | '-' :: ds =>
    (numeral? base ds).bind fun n => if n ≤ Nat.pow 2 63 then some (-(n : Int)) else none
  | '+' :: ds => (numeral? base ds).bind fun n => if n < Nat.pow 2 63 then some (n : Int) else none
  | ds => (numeral? base ds).bind fun n => if n < Nat.pow 2 64 then some (n : Int) else none

/-- A binary or an octal number whose sign stands after the mark of its base. -/
def innerSigned? : List Char → Option Int
  | '0' :: 'b' :: ds => signedNumeral? 2 ds
  | '0' :: 'o' :: ds => signedNumeral? 8 ds
  | _ => none

/-! ## Fractions -/

/-- A decimal: digits, a point and digits, and an exponent, taken apart. -/
structure Decimal where
  -- the digits before and after the point
  digits : List Char
  -- how many of them stand after the point
  places : Nat
  exponent : Int

/-- The exponent of a decimal. An empty one is zero. -/
def exponent? : List Char → Option Int
  | [] => some 0
  | e :: rest =>
    if e == 'e' || e == 'E' then
      match rest with
      | '-' :: ds => (numeral? 10 ds).map fun n => -(n : Int)
      | '+' :: ds => (numeral? 10 ds).map fun n => (n : Int)
      | ds => (numeral? 10 ds).map fun n => (n : Int)
    else none

/-- A decimal without a sign. There is a digit before the point, or one after it. -/
def decimal? (cs : List Char) : Option Decimal :=
  let whole := cs.takeWhile Char.isDigit
  let rest := cs.drop whole.length
  match rest with
  | '.' :: rest =>
    let places := rest.takeWhile Char.isDigit
    if whole.isEmpty && places.isEmpty then none
    else (exponent? (rest.drop places.length)).map fun e =>
      { digits := whole ++ places, places := places.length, exponent := e }
  | rest =>
    if whole.isEmpty then none
    else (exponent? rest).map fun e => { digits := whole, places := 0, exponent := e }

/-- The fraction of a decimal in double precision. One that is too large has none. -/
def Decimal.value? (x : Decimal) (negative : Bool) : Option Real :=
  let digits := x.digits.dropWhile (· == '0')
  let m := (numeral? 10 digits).getD 0
  let e := x.exponent - x.places
  let sign : Int := if negative then -1 else 1
  if m = 0 then some (.finite 0 1)
  else if e + digits.length > 400 then none
  else if e + digits.length < -400 then some (.finite 0 1)
  else
    let (n, d) := if e < 0 then (m, Nat.pow 10 (-e).toNat) else (m * Nat.pow 10 e.toNat, 1)
    (Double.round? n d).map fun (n, d) => .finite (sign * n) d

def fraction? : List Char → Option Real
  | '-' :: cs => (decimal? cs).bind (·.value? true)
  | '+' :: cs => (decimal? cs).bind (·.value? false)
  | cs => (decimal? cs).bind (·.value? false)

/-- Underscores stand only between digits. -/
def underscoresFit : Bool → List Char → Bool
  | _, [] => true
  | afterDigit, '_' :: rest => afterDigit && (rest.head?.map Char.isDigit).getD false
      && underscoresFit false rest
  | _, c :: rest => underscoresFit c.isDigit rest

/-! ## Dates -/

/-- A number of one or two digits. -/
def shortNumber? : List Char → Option (Nat × List Char)
  | a :: b :: rest =>
    if !a.isDigit then none
    else if b.isDigit then some (10 * (a.toNat - '0'.toNat) + (b.toNat - '0'.toNat), rest)
    else some (a.toNat - '0'.toNat, b :: rest)
  | [a] => if a.isDigit then some (a.toNat - '0'.toNat, []) else none
  | [] => none

def after? (c : Char) : List Char → Option (List Char)
  | d :: rest => if c = d then some rest else none
  | [] => none

def daysIn (year month : Nat) : Nat :=
  if month = 2 then
    if year % 4 = 0 ∧ (year % 100 ≠ 0 ∨ year % 400 = 0) then 29 else 28
  else if month = 4 ∨ month = 6 ∨ month = 9 ∨ month = 11 then 30
  else 31

/-- What follows a date: four digits of the year, the month and the day. -/
def date? (cs : List Char) : Option (List Char) := do
  let year ← numeral? 10 (cs.take 4)
  guard (4 ≤ cs.length)
  let (month, rest) ← shortNumber? (← after? '-' (cs.drop 4))
  guard (1 ≤ month ∧ month ≤ 12)
  let (day, rest) ← shortNumber? (← after? '-' rest)
  guard (1 ≤ day ∧ day ≤ daysIn year month)
  return rest

/-- What follows a time of day, with a fraction of a second or without. -/
def time? (cs : List Char) : Option (List Char) := do
  let (hour, rest) ← shortNumber? cs
  guard (hour < 24)
  let (minute, rest) ← shortNumber? (← after? ':' rest)
  guard (minute < 60)
  let (second, rest) ← shortNumber? (← after? ':' rest)
  guard (second < 60)
  match rest with
  | p :: d :: _ =>
    if (p == '.' || p == ',') && d.isDigit then return rest.tail.dropWhile Char.isDigit
    else return rest
  | _ => return rest

/-- The text is a time zone: the letter Z, or hours and minutes with a sign. -/
def isZone (cs : List Char) : Bool :=
  match cs with
  | ['Z'] => true
  | [s, a, b, ':', c, d] =>
    (s == '+' || s == '-') && [a, b, c, d].all Char.isDigit
      && ((numeral? 10 [a, b]).getD 0 ≤ 24) && ((numeral? 10 [c, d]).getD 0 ≤ 60)
  | _ => false

/-- The text is a date, or a date and a time. -/
def isTimestamp (cs : List Char) : Bool :=
  match date? cs with
  | none => false
  | some [] => true
  | some (c :: rest) =>
    if c == 'T' || c == 't' then ((time? rest).map isZone).getD false
    else if c == ' ' then time? (rest.dropWhile (· == ' ')) == some []
    else false

/-! ## Scalars -/

/-- The words that stand for a value of their own. -/
def words : List (String × Resolved) :=
  ["true", "True", "TRUE"].map (·, .bool true)
  ++ ["false", "False", "FALSE"].map (·, .bool false)
  ++ ["", "~", "null", "Null", "NULL"].map (·, .null)
  ++ [".nan", ".NaN", ".NAN"].map (·, .float .notANumber)
  ++ [".inf", ".Inf", ".INF", "+.inf", "+.Inf", "+.INF"].map (·, .float (.infinite false))
  ++ ["-.inf", "-.Inf", "-.INF"].map (·, .float (.infinite true))

/-- What a text that starts with a digit or a sign stands for. Underscores are
passed over in numbers. -/
def resolveNumber (dated : Bool) (cs : List Char) : Resolved :=
  let plain := cs.filter (· ≠ '_')
  if dated && isTimestamp cs then .timestamp
  else match wholeNumber? plain with
    | some n => .int n
    | none =>
      match fraction? plain with
      | some x => .float x
      | none => ((innerSigned? plain).map Resolved.int).getD .text

/-- What the text of a scalar stands for. Dates count only where `dated`. -/
def resolveAs (dated : Bool) (s : String) : Resolved :=
  match words.lookup s with
  | some r => r
  | none =>
    match s.toList with
    | [] => .null
    | c :: _ =>
      if c.isDigit || c == '+' || c == '-' then resolveNumber dated s.toList
      else if c == '.' && underscoresFit false s.toList then
        match fraction? (s.toList.filter (· ≠ '_')) with
        | some x => .float x
        | none => .text
      else .text

/-- What the text of a plain scalar stands for. -/
def resolve (s : String) : Resolved := resolveAs true s

end FlowGraph.Yaml
