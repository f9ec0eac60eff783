/-!
The tokens of a program text, and the lines they stand on. A text is cut into
lines first, because no token and no comment goes past the end of its line.
Blanks, commas and comments separate tokens and are not kept.
-/

namespace FlowGraph.Text

/-! ## Tokens -/

/-- A mark of the text. The comma is not one: it only separates. -/
inductive Mark where
  | openBrace
  | closeBrace
  | colon
  | equals
deriving DecidableEq

inductive Token where
  | ident (name : String)
  | number (value : Int64)
  | mark (m : Mark)
deriving DecidableEq

def Mark.text : Mark → String
  | openBrace => "\x7b"
  | closeBrace => "\x7d"
  | colon => ":"
  | equals => "="

def Token.text : Token → String
  | ident name => name
  | number value => toString value.toInt
  | mark m => m.text

/-- The class of a token, as messages name it. -/
def Token.className : Token → String
  | ident _ => "front.ident"
  | number _ => "front.number"
  | mark _ => "front.punct"

/-- A line of the text that has tokens, with its number. Lines count from one. -/
structure Line where
  number : Nat
  tokens : List Token
deriving DecidableEq

/-- What stops a line from being cut into tokens. -/
inductive TokenFault where
  | tooLarge (digits : String)
  | unsupported (byte : UInt8)
deriving DecidableEq

/-! ## Bytes -/

/-- The byte is a space, a tab or a carriage return. -/
def isBlank (c : UInt8) : Bool := c == 0x20 || c == 0x09 || c == 0x0d

def isDigit (c : UInt8) : Bool := 0x30 ≤ c && c ≤ 0x39

def isLetter (c : UInt8) : Bool := (0x41 ≤ c && c ≤ 0x5a) || (0x61 ≤ c && c ≤ 0x7a)

/-- The byte can start an identifier. -/
def isIdentStart (c : UInt8) : Bool := isLetter c || c == 0x5f

/-- The byte can stand in an identifier after its first. -/
def isIdentRest (c : UInt8) : Bool := isLetter c || isDigit c || c == 0x5f || c == 0x2e

def asciiText (bs : List UInt8) : String := String.ofList (bs.map (fun b => Char.ofNat b.toNat))

def markOf? (c : UInt8) : Option Mark :=
  if c = 0x7b then some .openBrace
  else if c = 0x7d then some .closeBrace
  else if c = 0x3a then some .colon
  else if c = 0x3d then some .equals
  else none

def digitsValue (ds : List UInt8) : Nat := ds.foldl (fun n d => 10 * n + (d.toNat - 0x30)) 0

/-- The number a text of digits stands for, if it fits in 64 bits with a sign. -/
def numberOf? (negative : Bool) (ds : List UInt8) : Option Int64 :=
  let n : Int := digitsValue ds
  let n := if negative then -n else n
  if Int64.minValue.toInt ≤ n ∧ n ≤ Int64.maxValue.toInt then some (Int64.ofInt n) else none

/-! ## Lines -/

/-- The tokens of one line. Identifiers and numbers are as long as they can be. -/
def tokens : List UInt8 → Except TokenFault (List Token)
  | [] => .ok []
  | c :: rest =>
    if isBlank c || c == 0x2c then tokens rest
    else match markOf? c with
      | some m => (tokens rest).map (Token.mark m :: ·)
      | none =>
        if c = 0x2f ∧ rest.head? = some 0x2f then .ok []
        else if isDigit c || (c == 0x2d && (rest.head?.map isDigit).getD false) then
          let digits := rest.takeWhile isDigit
          let value := if c = 0x2d then numberOf? true digits else numberOf? false (c :: digits)
          match value with
          | none => .error (.tooLarge (asciiText (c :: digits)))
          | some x => (tokens (rest.dropWhile isDigit)).map (Token.number x :: ·)
        else if isIdentStart c then
          (tokens (rest.dropWhile isIdentRest)).map
            (Token.ident (asciiText (c :: rest.takeWhile isIdentRest)) :: ·)
        else .error (.unsupported c)
termination_by bs => bs.length
decreasing_by
  all_goals
    simp only [List.length_cons]
    first
      | exact Nat.lt_succ_of_le (List.dropWhile_suffix _).length_le
      | exact Nat.lt_succ_self _

theorem tokens_nil : tokens [] = .ok [] := by rw [tokens]

/-- The lines of a text: what stands between its newlines. -/
def cutLines : List UInt8 → List (List UInt8)
  | [] => [[]]
  | c :: rest =>
    if c = 0x0a then [] :: cutLines rest
    else match cutLines rest with
      | [] => [[c]]
      | l :: ls => (c :: l) :: ls

/-- The lines from number `n` on that have tokens, or the first fault with its line number. -/
def numberedLines (n : Nat) : List (List UInt8) → Except (Nat × TokenFault) (List Line)
  | [] => .ok []
  | l :: ls =>
    match tokens l with
    | .error e => .error (n, e)
    | .ok ts =>
      let rest := numberedLines (n + 1) ls
      if ts.isEmpty then rest else rest.map ({ number := n, tokens := ts } :: ·)

/-- The lines of a text that have tokens. -/
def linesOf (text : List UInt8) : Except (Nat × TokenFault) (List Line) :=
  numberedLines 1 (cutLines text)

end FlowGraph.Text
