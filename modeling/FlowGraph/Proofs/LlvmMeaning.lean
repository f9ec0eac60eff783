import FlowGraph.Llvm.Module
import FlowGraph.Proofs.Machine

/-!
The meaning of an LLVM module. A value has one bit or 64, and an instruction
that gets the wrong kind is stuck. A register holds what was last put in it. A
call to a function without blocks goes to the outside and is recorded.
-/

namespace FlowGraph.Llvm

/-! ## Values -/

/-- What a value can be. -/
inductive Word where
  | bit (b : Bool)
  | word (x : Int64)
deriving DecidableEq

/-- What the registers hold. -/
abbrev Regs := Nat → Option Word

def Regs.set (regs : Regs) (n : Nat) (w : Word) : Regs := fun k => if k = n then some w else regs k

/-- What a value is, given the arguments and the registers. -/
def Value.eval (args : List Int64) (regs : Regs) : Value → Option Word
  | const x => some (.word x)
  | param i => (args[i]?).map .word
  | reg n => regs n

/-- The number that a value of 64 bits is. -/
def Value.word? (args : List Int64) (regs : Regs) (v : Value) : Option Int64 :=
  match v.eval args regs with
  | some (.word x) => some x
  | _ => none

/-- The bit that a value of one bit is. -/
def Value.bit? (args : List Int64) (regs : Regs) (v : Value) : Option Bool :=
  match v.eval args regs with
  | some (.bit b) => some b
  | _ => none

/-! ## Instructions -/

def Arith.apply : Arith → Int64 → Int64 → Int64
  | add, x, y => x + y
  | sub, x, y => x - y
  | mul, x, y => x * y

/-- The condition holds between two numbers with a sign. -/
def Pred.holds : Pred → Int64 → Int64 → Bool
  | eq, x, y => x == y
  | ne, x, y => x != y
  | slt, x, y => x < y
  | sle, x, y => x ≤ y
  | sgt, x, y => y < x
  | sge, x, y => y ≤ x

/-- What is computed without a call. -/
def Rhs.compute (args : List Int64) (regs : Regs) : Rhs → Option Word
  | arith op x y => do return .word (op.apply (← x.word? args regs) (← y.word? args regs))
  | icmp p x y => do return .bit (p.holds (← x.word? args regs) (← y.word? args regs))
  | zext x => do return .word (if ← x.bit? args regs then 1 else 0)
  | call _ _ => none

/-! ## Runs -/

/-- A function under way: what is left of the block it is in, and the registers. -/
structure Activation where
  function : Function
  args : List Int64
  code : List Instr
  term : Option Term
  regs : Regs := fun _ => none

/-- The function goes on with a number in a register. -/
def Activation.resume (a : Activation) (n : Nat) (x : Int64) : Activation :=
  { a with regs := a.regs.set n (.word x) }

def Function.activation (f : Function) (args : List Int64) : Activation where
  function := f
  args := args
  code := (f.blocks.head?.map (·.code)).getD []
  term := f.blocks.head?.bind (·.term)

/-- A run: the function under way, those that wait for a result with the register
it is for, and the calls to the outside so far. -/
structure Running where
  now : Activation
  waiting : List (Nat × Activation) := []
  calls : List Event := []

def Running.jump (s : Running) (target : Option Nat) : Move Running :=
  match target.bind (s.now.function.blocks[·]?) with
  | some b => .next { s with now := { s.now with code := b.code, term := b.term } }
  | none => .stuck

/-- The run calls a function, which must take as many arguments as it gets. -/
def Running.call (m : Module) (o : Oracle) (s : Running) (reg callee : Nat) (xs : List Int64)
    (a : Activation) : Move Running :=
  match m.functions[callee]? with
  | none => .stuck
  | some f =>
    if f.params ≠ xs.length then .stuck
    else if f.blocks.isEmpty then
      let e := { callee := f.name, args := xs }
      .next { s with now := a.resume reg (o s.calls e), calls := s.calls ++ [e] }
    else .next { s with now := f.activation xs, waiting := (reg, a) :: s.waiting }

def Running.step (m : Module) (o : Oracle) (s : Running) : Move Running :=
  match s.now.code with
  | i :: rest =>
    let a := { s.now with code := rest }
    match i.rhs with
    | .call callee xs =>
      match xs.mapM (Value.word? s.now.args s.now.regs) with
      | none => .stuck
      | some xs => s.call m o i.reg callee xs a
    | rhs =>
      match rhs.compute s.now.args s.now.regs with
      | none => .stuck
      | some w => .next { s with now := { a with regs := a.regs.set i.reg w } }
  | [] =>
    match s.now.term with
    | none => .stuck
    | some (.br target) => s.jump target
    | some (.condBr c yes no) =>
      match c.bit? s.now.args s.now.regs with
      | none => .stuck
      | some b => s.jump (if b then yes else no)
    | some (.ret x) =>
      match x.word? s.now.args s.now.regs with
      | none => .stuck
      | some x =>
        match s.waiting with
        | [] => .done x
        | (n, a) :: waiting => .next { s with now := a.resume n x, waiting := waiting }

theorem Running.calls_jump {s s' : Running} {target : Option Nat} (h : s.jump target = .next s') :
    s.calls <+: s'.calls := by
  unfold Running.jump at h
  split at h
  · cases h
    exact List.prefix_rfl
  · cases h

theorem Running.calls_call {m : Module} {o : Oracle} {s s' : Running} {reg callee : Nat}
    {xs : List Int64} {a : Activation} (h : s.call m o reg callee xs a = .next s') :
    s.calls <+: s'.calls := by
  unfold Running.call at h
  split at h
  · cases h
  · split at h
    · cases h
    · split at h
      · cases h
        exact List.prefix_append _ _
      · cases h
        exact List.prefix_rfl

theorem Running.calls_step {m : Module} {o : Oracle} {s s' : Running}
    (h : s.step m o = .next s') : s.calls <+: s'.calls := by
  unfold Running.step at h
  split at h
  · dsimp only at h
    split at h
    · split at h
      · cases h
      · exact calls_call h
    · split at h
      · cases h
      · cases h
        exact List.prefix_rfl
  · split at h
    · cases h
    · exact calls_jump h
    · split at h
      · cases h
      · exact calls_jump h
    · split at h
      · cases h
      · split at h
        · cases h
        · cases h
          exact List.prefix_rfl

/-- The runs of the functions of a module. -/
def runs (m : Module) (o : Oracle) : Machine Running where
  step := Running.step m o
  calls := Running.calls
  grows := fun _ _ => Running.calls_step

/-- A function of the module behaves so. -/
def Module.Behaves (m : Module) (f : Function) (args : List Int64) (o : Oracle) (b : Behaviour) :
    Prop :=
  (runs m o).Behaves { now := f.activation args } b

end FlowGraph.Llvm
