/-!
The operations of an instruction: which one it is, what it is called in a
text, whether it ends a block, and whether it gives a value. The conditions
of a comparison stand here too.
-/

namespace FlowGraph

/-! ## Operations -/

/-- The operation of an instruction. A code that names no operation is kept as
`unknown`, so that a malformed graph can be held and reported. -/
inductive Op where
  | const
  | arg
  | add
  | sub
  | mul
  | cmp
  | call
  | br
  | brif
  | ret
  | unknown (code : UInt8)
deriving DecidableEq

/-- How an operation ends a block, if it does. -/
inductive Ending where
  | jump
  | branch
  | leave
deriving DecidableEq

namespace Op

/-- The known operations, in the order of their codes. -/
def known : List Op := [const, arg, add, sub, mul, cmp, call, br, brif, ret]

/-- The code of an operation. Codes of known operations start at one. -/
def code : Op → UInt8
  | const => 1
  | arg => 2
  | add => 3
  | sub => 4
  | mul => 5
  | cmp => 6
  | call => 7
  | br => 8
  | brif => 9
  | ret => 10
  | unknown c => c

def ofCode (c : UInt8) : Op :=
  (known.find? (fun o => o.code == c)).getD (unknown c)

/-- The name of an operation. Code zero is the operation that was never set. -/
def name : Op → String
  | const => "const"
  | arg => "arg"
  | add => "add"
  | sub => "sub"
  | mul => "mul"
  | cmp => "cmp"
  | call => "call"
  | br => "br"
  | brif => "brif"
  | ret => "ret"
  | unknown c => if c = 0 then "invalid" else "op(" ++ toString c.toNat ++ ")"

def ofName? (s : String) : Option Op := known.find? (fun o => o.name == s)

def isKnown : Op → Bool
  | unknown _ => false
  | _ => true

/-- How the operation ends a block: `none` if it does not. -/
def ending : Op → Option Ending
  | br => some .jump
  | brif => some .branch
  | ret => some .leave
  | _ => none

def isTerminator (o : Op) : Bool := o.ending.isSome

/-- The operation gives a value that other instructions may use. -/
def defines : Op → Bool
  | const | arg | add | sub | mul | cmp | call => true
  | _ => false

theorem ofName?_name {o : Op} (h : o.isKnown) : ofName? o.name = some o := by
  cases o <;> first | decide | simp [isKnown] at h

theorem ofCode_code {o : Op} (h : o.isKnown) : ofCode o.code = o := by
  cases o <;> first | decide | simp [isKnown] at h

end Op

/-! ## Conditions -/

inductive Cond where
  | eq
  | ne
  | lt
  | le
  | gt
  | ge
deriving DecidableEq

namespace Cond

def all : List Cond := [eq, ne, lt, le, gt, ge]

def name : Cond → String
  | eq => "eq"
  | ne => "ne"
  | lt => "lt"
  | le => "le"
  | gt => "gt"
  | ge => "ge"

def ofName? (s : String) : Option Cond := all.find? (fun c => c.name == s)

theorem ofName?_name (c : Cond) : ofName? c.name = some c := by cases c <;> decide

end Cond

end FlowGraph
