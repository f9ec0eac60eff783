import FlowGraph.Graph
import FlowGraph.Proofs.Machine

/-!
The meaning of a graph. A run starts at the entry and goes through the
instructions of a block. Numbers have 64 bits and wrap, a comparison gives one
or zero, and a return without a value gives zero. A call to a known function
runs it, and any other call is answered by an oracle and recorded. A run that
reads a value that is not known, or that is malformed, is stuck.
-/

namespace FlowGraph

/-! ## One instruction -/

/-- The values known in a run, by number. -/
abbrev Env := ValueId → Option Int64

def Env.set (env : Env) (id : ValueId) (x : Int64) : Env :=
  fun v => if v = id then some x else env v

/-- The condition holds between two numbers with a sign. -/
def Cond.holds : Cond → Int64 → Int64 → Bool
  | eq, x, y => x == y
  | ne, x, y => x != y
  | lt, x, y => x < y
  | le, x, y => x ≤ y
  | gt, x, y => y < x
  | ge, x, y => y ≤ x

inductive Deed where
  | give (x : Int64)
  | call (e : Event)
  | jump (b : BlockId)
  | leave (x : Int64)
  | fail

/-- An operation on exactly two values. -/
def Deed.ofTwo (f : Int64 → Int64 → Int64) : List Int64 → Deed
  | [x, y] => .give (f x y)
  | _ => .fail

theorem Deed.ofTwo_cases (f : Int64 → Int64 → Int64) (xs : List Int64) :
    Deed.ofTwo f xs = .fail ∨ ∃ x, Deed.ofTwo f xs = .give x := by
  unfold Deed.ofTwo
  split
  · exact .inr ⟨_, rfl⟩
  · exact .inl rfl

def argument? (args : List Int64) (n : Int64) : Option Int64 :=
  if n < 0 then none else args[n.toInt.toNat]?

/-- What an instruction does with the values that its operands name. -/
def Instr.act (args xs : List Int64) (i : Instr) : Deed :=
  match i.op with
  | .const => .give i.imm
  | .arg =>
    match argument? args i.imm with
    | none => .fail
    | some x => .give x
  | .add => .ofTwo (· + ·) xs
  | .sub => .ofTwo (· - ·) xs
  | .mul => .ofTwo (· * ·) xs
  | .cmp =>
    match Cond.ofName? i.cond with
    | none => .fail
    | some c => .ofTwo (fun x y => if c.holds x y then 1 else 0) xs
  | .call => .call { callee := i.sym, args := xs }
  | .br =>
    match i.targets with
    | [t] => .jump t
    | _ => .fail
  | .brif =>
    match xs, i.targets with
    | [c], [yes, no] => .jump (if c ≠ 0 then yes else no)
    | _, _ => .fail
  | .ret =>
    match xs with
    | [] => .leave 0
    | [x] => .leave x
    | _ => .fail
  | .unknown _ => .fail

/-- What an instruction does, given the arguments and the values known. It reads
all values that its operands name. -/
def Instr.perform (args : List Int64) (env : Env) (i : Instr) : Deed :=
  match i.values.mapM env with
  | none => .fail
  | some xs => i.act args xs

theorem Action.targets_brif {a : Action} {v : ValueId} {yes no : BlockId}
    (h : a.args = [.value v, .block yes, .block no]) : a.targets = [yes, no] := by
  rw [Action.targets, h]
  rfl

theorem Instr.perform_br {i : Instr} (hop : i.op = .br) {t : BlockId} (ha : i.args = [.block t])
    (args : List Int64) (env : Env) : i.perform args env = .jump t := by
  have hv : i.values = [] := by simp [Action.values, ha, Operand.value?]
  have ht : i.targets = [t] := by simp [Action.targets, ha, Operand.block?]
  unfold Instr.perform
  rw [hv]
  simp [Instr.act, hop, ht]

theorem Instr.perform_one {i : Instr} {v : ValueId} (hv : i.values = [v]) (args : List Int64)
    (env : Env) :
    i.perform args env = match env v with
      | none => .fail
      | some x => i.act args [x] := by
  unfold Instr.perform
  rw [hv]
  cases henv : env v <;> simp [henv]

/-! ## Runs -/

/-- A function under way: what is left of the block it is in, and the values known. -/
structure Activation where
  graph : Graph
  args : List Int64
  code : List Instr
  env : Env := fun _ => none

/-- The function goes on with a result for the value `id`. -/
def Activation.resume (a : Activation) (id : ValueId) (x : Int64) : Activation :=
  { a with env := a.env.set id x }

/-- A function at its entry. Without one there is nothing to run. -/
def Graph.activation (g : Graph) (args : List Int64) : Activation :=
  { graph := g, args := args, code := (g.entryBlock?.map (·.code)).getD [] }

/-- A run: the function under way, those that wait for a result with the value it
is for, and the calls to the outside so far. -/
structure Running where
  now : Activation
  waiting : List (ValueId × Activation) := []
  calls : List Event := []

def Running.step (known : String → Option Graph) (o : Oracle) (s : Running) : Move Running :=
  match s.now.code with
  | [] => .stuck
  | i :: rest =>
    let a := { s.now with code := rest }
    match i.perform s.now.args s.now.env with
    | .give x => .next { s with now := a.resume i.id x }
    | .call e =>
      match known e.callee with
      | none => .next { s with now := a.resume i.id (o s.calls e), calls := s.calls ++ [e] }
      | some g => .next { s with now := g.activation e.args, waiting := (i.id, a) :: s.waiting }
    | .jump b =>
      match s.now.graph.block? b with
      | none => .stuck
      | some block => .next { s with now := { s.now with code := block.code } }
    | .leave x =>
      match s.waiting with
      | [] => .done x
      | (id, a) :: waiting => .next { s with now := a.resume id x, waiting := waiting }
    | .fail => .stuck

theorem Running.calls_step {known : String → Option Graph} {o : Oracle} {s s' : Running}
    (h : s.step known o = .next s') : s.calls <+: s'.calls := by
  unfold Running.step at h
  split at h
  · cases h
  · dsimp only at h
    split at h
    · cases h; exact List.prefix_rfl
    · split at h
      · cases h; exact List.prefix_append _ _
      · cases h; exact List.prefix_rfl
    · split at h
      · cases h
      · cases h; exact List.prefix_rfl
    · split at h
      · cases h
      · cases h; exact List.prefix_rfl
    · cases h

/-- The runs of functions, where some functions are known and the others are outside. -/
def runs (known : String → Option Graph) (o : Oracle) : Machine Running where
  step := Running.step known o
  calls := Running.calls
  grows := fun _ _ => Running.calls_step

/-- A function by itself behaves so: all its calls go outside. -/
def Graph.Behaves (g : Graph) (args : List Int64) (o : Oracle) (b : Behaviour) : Prop :=
  (runs (fun _ => none) o).Behaves { now := g.activation args } b

end FlowGraph
