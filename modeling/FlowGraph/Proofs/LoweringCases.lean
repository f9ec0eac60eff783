import FlowGraph.Llvm.Lower
import FlowGraph.Proofs.Lists

/-!
What lowering one instruction can do. One that is lowered does what its operation
asks for, with the values of its operands at hand. One that is not lowered is
refused for a fault of its own, or lacks an operand. What is shown of lowering
elsewhere goes through these cases.
-/

namespace FlowGraph

open Llvm (Value Ty)

namespace Lower

/-! ## Operands -/

section Operands

variable {f : Frame} {vs : List ValueId}

theorem Frame.operands_eq_ok {ys : List (Value × Ty)} :
    f.operands vs = .ok ys ↔ vs.mapM (fun v => f.values.lookup v) = some ys := by
  unfold Frame.operands
  rw [mapM_eq_ok, mapM_eq_some]
  constructor
  · refine fun h => h.imp ?_
    intro v y hv
    split at hv
    · rename_i x hx
      cases hv
      exact hx
    · cases hv
  · refine fun h => h.imp ?_
    intro v y hv
    simp only [hv]

theorem Frame.length_operands {ys : List (Value × Ty)} (h : f.operands vs = .ok ys) :
    ys.length = vs.length :=
  (mapM_eq_some.mp (Frame.operands_eq_ok.mp h)).length_eq.symm

theorem Frame.operands_eq_error {e : LowerFault} (h : f.operands vs = .error e) :
    ∃ v ∈ vs, v ∉ f.values.map (·.1) ∧ e = .usedBeforeDefinition v := by
  obtain ⟨v, hv, hone⟩ := mapM_eq_error h
  cases hx : f.values.lookup v with
  | some x =>
    rw [hx] at hone
    cases hone
  | none =>
    rw [hx] at hone
    cases hone
    refine ⟨v, hv, ?_, rfl⟩
    rw [← isSome_lookup, hx]
    simp

end Operands

/-! ## Callees -/

/-- The number of parameters of the function at a place, which is none where there is none. -/
def Symbols.paramsAt (s : Symbols) (k : Nat) : Nat := ((s.functions[k]?).map (·.params)).getD 0

/-- The symbols with a callee declared that was not known. -/
def Symbols.declare (s : Symbols) (name : String) (args : Nat) : Symbols :=
  { s with
    functions := s.functions ++ [{ name := name, params := args }]
    externs := (name, s.functions.length) :: s.externs }

section Callee

variable {s s' : Symbols} {name : String} {args k : Nat}

/-- A callee that is known has to take what it is given, and any other is declared. -/
theorem Symbols.callee_cases (h : s.callee name args = .ok (s', k)) :
    s' = s ∧ (s.defined.lookup name).or (s.externs.lookup name) = some k ∧ s.paramsAt k = args ∨
      (s.defined.lookup name).or (s.externs.lookup name) = none ∧ k = s.functions.length ∧
        s' = s.declare name args := by
  unfold Symbols.callee at h
  dsimp only at h
  split at h
  · rename_i j hd
    split at h
    · rename_i hargs
      cases h
      exact .inl ⟨rfl, by rw [hd]; rfl, hargs⟩
    · cases h
  · rename_i hd
    split at h
    · rename_i j hx
      split at h
      · rename_i hargs
        cases h
        exact .inl ⟨rfl, by rw [hd, hx]; rfl, hargs⟩
      · cases h
    · rename_i hx
      cases h
      exact .inr ⟨by rw [hd, hx]; rfl, rfl, rfl⟩

theorem Symbols.callee_eq_error {e : LowerFault} (h : s.callee name args = .error e) :
    ∃ j, (s.defined.lookup name).or (s.externs.lookup name) = some j ∧ s.paramsAt j ≠ args ∧
      (e = .callArity name args (s.paramsAt j) ∨ e = .callAgain name args (s.paramsAt j)) := by
  unfold Symbols.callee at h
  dsimp only at h
  split at h
  · rename_i j hd
    split at h
    · cases h
    · rename_i hne
      cases h
      exact ⟨j, by rw [hd]; rfl, hne, .inl rfl⟩
  · rename_i hd
    split at h
    · rename_i j hx
      split at h
      · cases h
      · rename_i hne
        cases h
        exact ⟨j, by rw [hd, hx]; rfl, hne, .inr rfl⟩
    · cases h

end Callee

/-! ## Instructions that are lowered -/

/-- An argument is one of the first so many. -/
def InRange (n : Int) (i : Instr) : Prop := i.op = .arg → 0 ≤ i.imm.toInt ∧ i.imm.toInt < n

def Frame.ended (f : Frame) (k : Nat) (t : Llvm.Term) : Frame :=
  { f with function := f.function.terminate k t }

/-- The frame with values widened and a result computed from them. -/
def Frame.compute (f : Frame) (k : Nat) (id : ValueId) (ys : List (Value × Ty))
    (rhs : List Value → Llvm.Rhs) (t : Ty) : Frame :=
  let wide := f.widenAll k ys
  let result := wide.1.emit k (rhs wide.2)
  result.1.define id result.2 t

/-- What two values give, as something that a list of values gives. -/
def onTwo (rhs : Value → Value → Llvm.Rhs) : List Value → Llvm.Rhs
  | [u, v] => rhs u v
  | _ => .zext (.const 0)

/-- What an instruction computes from two values, and the type of the result. -/
inductive OnPair (i : Instr) : (Value → Value → Llvm.Rhs) → Ty → Prop
  | add (hop : i.op = .add) : OnPair i (.arith .add) .i64
  | sub (hop : i.op = .sub) : OnPair i (.arith .sub) .i64
  | mul (hop : i.op = .mul) : OnPair i (.arith .mul) .i64
  | cmp (hop : i.op = .cmp) {c : Cond} (hc : Cond.ofName? i.cond = some c) :
      OnPair i (.icmp (predOf c)) .i1

/-- What lowering an instruction does, with the values of its operands at hand. Only a call can
change the symbols. -/
inductive Does (s : Symbols) (f : Frame) (k : Nat) (i : Instr) :
    List (Value × Ty) → Symbols → Frame → Prop
  | const {ys} (hop : i.op = .const) : Does s f k i ys s (f.define i.id (.const i.imm) .i64)
  | arg {ys} (hop : i.op = .arg) (hin : InRange f.function.params i) :
      Does s f k i ys s (f.define i.id (.param i.imm.toInt.toNat) .i64)
  | pair {x y ys rhs t} (hrhs : OnPair i rhs t) :
      Does s f k i (x :: y :: ys) s (f.compute k i.id [x, y] (onTwo rhs) t)
  | call {ys s' callee} (hop : i.op = .call)
      (hcallee : s.callee i.sym ys.length = .ok (s', callee)) :
      Does s f k i ys s' (f.compute k i.id ys (.call callee) .i64)
  | br {ys t rest} (hop : i.op = .br) (hargs : i.args = t :: rest) :
      Does s f k i ys s (f.ended k (.br (f.blocks.lookup t.blockOrZero)))
  | brif {y ys v yes no rest} (hop : i.op = .brif) (hargs : i.args = v :: yes :: no :: rest) :
      Does s f k i (y :: ys) s ((f.narrow k y).1.ended k (.condBr (f.narrow k y).2
        (f.blocks.lookup yes.blockOrZero) (f.blocks.lookup no.blockOrZero)))
  | leave (hop : i.op = .ret) : Does s f k i [] s (f.ended k (.ret (.const 0)))
  | ret {y ys} (hop : i.op = .ret) :
      Does s f k i (y :: ys) s ((f.widen k y).1.ended k (.ret (f.widen k y).2))

section Instr

variable {s s' : Symbols} {f f' : Frame} {k : Nat} {i : Instr}

theorem OnPair.op {rhs : Value → Value → Llvm.Rhs} {t : Ty} (h : OnPair i rhs t) :
    i.op = .add ∨ i.op = .sub ∨ i.op = .mul ∨ i.op = .cmp := by
  cases h with
  | add hop => exact .inl hop
  | sub hop => exact .inr (.inl hop)
  | mul hop => exact .inr (.inr (.inl hop))
  | cmp hop _ => exact .inr (.inr (.inr hop))

theorem Frame.blocks_narrow (f : Frame) (k : Nat) (y : Value × Ty) :
    (f.narrow k y).1.blocks = f.blocks := by
  obtain ⟨v, t⟩ := y
  cases t <;> rfl

theorem inRange_iff (hop : i.op = .arg) {n : Nat} :
    InRange n i ↔ ¬ (i.imm < 0 ∨ (n : Int) ≤ i.imm.toInt) := by
  have hzero : Int64.toInt 0 = 0 := rfl
  rw [Int64.lt_iff_toInt_lt, hzero]
  unfold InRange
  simp only [hop, forall_const]
  omega

/-- What comes after the first two operands is not looked at. -/
theorem OnPair.does {rhs : Value → Value → Llvm.Rhs} {t : Ty} {ys : List (Value × Ty)}
    (hrhs : OnPair i rhs t) (h : (f.lowerBinary k i.id t rhs ys).map (s, ·) = .ok (s', f')) :
    Does s f k i ys s' f' := by
  rcases ys with _ | ⟨x, _ | ⟨y, ys⟩⟩
  · cases h
  · cases h
  · cases h
    exact .pair hrhs

theorem lowerInstr_ok (h : lowerInstr s f k i = .ok (s', f')) :
    ∃ ys, f.operands i.values = .ok ys ∧ Does s f k i ys s' f' := by
  unfold lowerInstr at h
  split at h
  · cases h
  · rename_i ys hys
    refine ⟨ys, hys, ?_⟩
    -- one case for each operation, in the order of the definition
    split at h
    · rename_i hop
      cases h
      exact .const hop
    · rename_i hop
      split at h
      · cases h
      · rename_i hin
        cases h
        exact .arg hop ((inRange_iff hop).mpr hin)
    · rename_i hop
      exact (OnPair.add hop).does h
    · rename_i hop
      exact (OnPair.sub hop).does h
    · rename_i hop
      exact (OnPair.mul hop).does h
    · rename_i hop
      split at h
      · cases h
      · rename_i hc
        exact (OnPair.cmp hop hc).does h
    · rename_i hop
      split at h
      · cases h
      · rename_i hcallee
        cases h
        exact .call hop hcallee
    · rename_i hop
      split at h
      · cases h
      · rename_i hargs
        cases h
        exact .br hop hargs
    · rename_i hop
      split at h
      · rename_i y ys _ _ _ _ hargs
        cases h
        have hdoes : Does s f k i (y :: ys) s _ := .brif hop hargs
        rw [← f.blocks_narrow k y] at hdoes
        exact hdoes
      · cases h
    · rename_i hop
      split at h
      · cases h
        exact .leave hop
      · cases h
        exact .ret hop
    · cases h

/-! ## Instructions that are refused -/

/-- Why an instruction is not lowered: what is wrong with it, or which operand it lacks. -/
inductive Refuses (s : Symbols) (f : Frame) (i : Instr) : Stop → Prop
  | early {v : ValueId} (hv : v ∈ i.values) (hno : v ∉ f.values.map (·.1)) :
      Refuses s f i (.fault (.usedBeforeDefinition v))
  | range (hno : ¬ InRange f.function.params i) :
      Refuses s f i (.fault (.argumentOutOfRange i.imm))
  | cond (hop : i.op = .cmp) (hno : Cond.ofName? i.cond = none) :
      Refuses s f i (.fault (.unsupportedCondition i.cond))
  | arity (hop : i.op = .call) {j : Nat}
      (hj : (s.defined.lookup i.sym).or (s.externs.lookup i.sym) = some j)
      (hne : s.paramsAt j ≠ i.values.length) :
      Refuses s f i (.fault (.callArity i.sym i.values.length (s.paramsAt j)))
  | again (hop : i.op = .call) {j : Nat}
      (hj : (s.defined.lookup i.sym).or (s.externs.lookup i.sym) = some j)
      (hne : s.paramsAt j ≠ i.values.length) :
      Refuses s f i (.fault (.callAgain i.sym i.values.length (s.paramsAt j)))
  | unknown {c : UInt8} (hop : i.op = .unknown c) : Refuses s f i (.fault .unsupportedOperation)
  | pair (hop : i.op = .add ∨ i.op = .sub ∨ i.op = .mul ∨ i.op = .cmp)
      (hno : i.values.length < 2) : Refuses s f i .crash
  | br (hop : i.op = .br) (hno : i.args = []) : Refuses s f i .crash
  | brif (hop : i.op = .brif) (hno : i.values = [] ∨ i.args.length < 3) : Refuses s f i .crash

theorem OnPair.refuses {rhs : Value → Value → Llvm.Rhs} {t : Ty} {ys : List (Value × Ty)}
    (hrhs : OnPair i rhs t) (hlen : ys.length = i.values.length) {stop : Stop}
    (h : (f.lowerBinary k i.id t rhs ys).map (s, ·) = .error stop) : Refuses s f i stop := by
  rcases ys with _ | ⟨x, _ | ⟨y, ys⟩⟩
  · cases h
    exact .pair hrhs.op (by simp [← hlen])
  · cases h
    exact .pair hrhs.op (by simp [← hlen])
  · cases h

theorem refuses_brif (hop : i.op = .brif) {ys : List (Value × Ty)}
    (hlen : ys.length = i.values.length)
    (hno : ∀ y ys' v yes no rest, ys = y :: ys' → i.args = v :: yes :: no :: rest → False) :
    Refuses s f i .crash := by
  refine .brif hop ?_
  rcases ys with _ | ⟨y, ys⟩
  · exact .inl (List.eq_nil_of_length_eq_zero hlen.symm)
  · right
    rcases hargs : i.args with _ | ⟨v, _ | ⟨yes, _ | ⟨no, rest⟩⟩⟩
    · simp
    · simp
    · simp
    · exact (hno y ys v yes no rest rfl hargs).elim

theorem lowerInstr_refuses {stop : Stop} (h : lowerInstr s f k i = .error stop) :
    Refuses s f i stop := by
  unfold lowerInstr at h
  split at h
  · rename_i hops
    cases h
    obtain ⟨v, hv, hno, rfl⟩ := Frame.operands_eq_error hops
    exact .early hv hno
  · rename_i ys hops
    have hlen := Frame.length_operands hops
    -- one case for each operation, in the order of the definition
    split at h
    · cases h
    · rename_i hop
      split at h
      · rename_i hout
        cases h
        exact .range fun hin => (inRange_iff hop).mp hin hout
      · cases h
    · rename_i hop
      exact (OnPair.add hop).refuses hlen h
    · rename_i hop
      exact (OnPair.sub hop).refuses hlen h
    · rename_i hop
      exact (OnPair.mul hop).refuses hlen h
    · rename_i hop
      split at h
      · rename_i hno
        cases h
        exact .cond hop hno
      · rename_i hc
        exact (OnPair.cmp hop hc).refuses hlen h
    · rename_i hop
      split at h
      · rename_i hcallee
        cases h
        rw [hlen] at hcallee
        obtain ⟨j, hj, hne, rfl | rfl⟩ := Symbols.callee_eq_error hcallee
        · exact .arity hop hj hne
        · exact .again hop hj hne
      · cases h
    · rename_i hop
      split at h
      · rename_i hargs
        cases h
        exact .br hop hargs
      · cases h
    · rename_i hop
      split at h
      · cases h
      · rename_i hno
        cases h
        exact refuses_brif hop hlen hno
    · split at h <;> cases h
    · rename_i hop
      cases h
      exact .unknown hop

end Instr

end Lower

end FlowGraph
