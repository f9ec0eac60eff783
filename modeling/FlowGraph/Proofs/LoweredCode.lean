import FlowGraph.Llvm.Lower
import FlowGraph.Proofs.Lists
import FlowGraph.Proofs.LlvmMeaning
import FlowGraph.Proofs.Meaning

/-!
What the code of a block becomes when it is lowered, apart from how this is
done: each instruction becomes a few instructions in a row, which widen or
narrow what is used and then compute the result into a register of its own.
Running these does what the instruction does.
-/

namespace FlowGraph

open Llvm (Value Ty Word Regs)

/-! ## Straight code -/

namespace Llvm

/-- The registers after instructions in a row, of which none is a call. -/
def runAll (args : List Int64) : List Instr → Regs → Option Regs
  | [], regs => some regs
  | i :: rest, regs =>
    match i.rhs.compute args regs with
    | none => none
    | some w => runAll args rest (regs.set i.reg w)

theorem runAll_append (args : List Int64) (l l' : List Instr) (regs : Regs) :
    runAll args (l ++ l') regs = (runAll args l regs).bind (runAll args l') := by
  induction l generalizing regs with
  | nil => rfl
  | cons i l ih =>
    simp only [List.cons_append, runAll]
    cases i.rhs.compute args regs with
    | none => rfl
    | some w => exact ih _

theorem Running.step_compute {m : Module} {o : Oracle} {s : Running} {i : Instr}
    {rest : List Instr} {w : Word} (hcode : s.now.code = i :: rest)
    (hw : i.rhs.compute s.now.args s.now.regs = some w) :
    s.step m o = .next { s with now := { s.now with code := rest, regs := s.now.regs.set i.reg w } } := by
  unfold Running.step
  rw [hcode]
  cases hr : i.rhs with
  | call callee xs =>
    rw [hr] at hw
    cases hw
  | arith op x y =>
    rw [hr] at hw
    simp only [hr, hw]
  | icmp p x y =>
    rw [hr] at hw
    simp only [hr, hw]
  | zext x =>
    rw [hr] at hw
    simp only [hr, hw]

theorem Running.step_call {m : Module} {o : Oracle} {s : Running} {n k : Nat} {vs : List Value}
    {rest : List Instr} {xs : List Int64} (hcode : s.now.code = ⟨n, .call k vs⟩ :: rest)
    (hxs : vs.mapM (Value.word? s.now.args s.now.regs) = some xs) :
    s.step m o = s.call m o n k xs { s.now with code := rest } := by
  unfold Running.step
  rw [hcode]
  simp only [hxs]

theorem Running.step_condBr {m : Module} {o : Oracle} {s : Running} {v : Value}
    {yes no : Option Nat} {b : Bool} (hcode : s.now.code = [])
    (hterm : s.now.term = some (.condBr v yes no))
    (hv : v.bit? s.now.args s.now.regs = some b) :
    s.step m o = s.jump (if b then yes else no) := by
  unfold Running.step
  simp only [hcode, hterm, hv]

theorem after_step {m : Module} {o : Oracle} {s s' : Running} (h : s.step m o = .next s') :
    (runs m o).after 1 s = some s' :=
  Machine.after_one.mpr h

/-- A run goes over instructions in a row. -/
theorem after_runAll {m : Module} {o : Oracle} (l : List Instr) {rest : List Instr} {s : Running}
    {regs : Regs} (hcode : s.now.code = l ++ rest)
    (hregs : runAll s.now.args l s.now.regs = some regs) :
    (runs m o).after l.length s =
      some { s with now := { s.now with code := rest, regs := regs } } := by
  induction l generalizing s with
  | nil =>
    cases hregs
    rw [List.nil_append] at hcode
    rw [← hcode]
    rfl
  | cons i l ih =>
    simp only [runAll] at hregs
    split at hregs
    · cases hregs
    · rename_i w hw
      have hstep := Running.step_compute (m := m) (o := o) hcode hw
      rw [List.length_cons, Nat.add_comm, Machine.after_add, after_step hstep]
      exact ih rfl hregs

end Llvm

/-! ## Values in registers -/

namespace Lower

/-- The instructions that make a value one of 64 bits, from a register on, and the
value that they make. -/
def widened (r : Nat) : Value × Ty → List Llvm.Instr × Value
  | (x, .i64) => ([], x)
  | (x, .i1) => ([⟨r, .zext x⟩], .reg r)

/-- The same for values in a row. -/
def widenedAll (r : Nat) : List (Value × Ty) → List Llvm.Instr × List Value
  | [] => ([], [])
  | x :: xs =>
    let one := widened r x
    let more := widenedAll (r + one.1.length) xs
    (one.1 ++ more.1, one.2 :: more.2)

theorem length_widenedAll (r : Nat) (ys : List (Value × Ty)) :
    (widenedAll r ys).2.length = ys.length := by
  induction ys generalizing r with
  | nil => rfl
  | cons y ys ih => simp [widenedAll, ih]

/-- The instructions that make a value one of a single bit, from a register on, and
the value that they make. -/
def narrowed (r : Nat) : Value × Ty → List Llvm.Instr × Value
  | (x, .i1) => ([], x)
  | (x, .i64) => ([⟨r, .icmp .ne x (.const 0)⟩], .reg r)

/-- A value of a type stands for a number. One bit stands for one or zero. -/
def Holds (args : List Int64) (regs : Regs) (x : Int64) : Value × Ty → Prop
  | (v, .i64) => v.eval args regs = some (.word x)
  | (v, .i1) => ∃ b : Bool, v.eval args regs = some (.bit b) ∧ x = if b then 1 else 0

/-- Registers that differ in those from `r` up to `n` at most. -/
def SameBut (r n : Nat) (regs regs' : Regs) : Prop := ∀ k, k < r ∨ n ≤ k → regs' k = regs k

/-- The value is not in a register from `r` up to `n`. -/
def Clear (r n : Nat) (v : Value) : Prop := ∀ k, v = .reg k → k < r ∨ n ≤ k

section Registers

variable {args : List Int64} {regs regs' regs'' : Regs} {r n k : Nat} {v : Value}

theorem SameBut.refl (r n : Nat) (regs : Regs) : SameBut r n regs regs := fun _ _ => rfl

theorem SameBut.trans (hrn : r ≤ n) (hnk : n ≤ k) (h : SameBut r n regs regs')
    (h' : SameBut n k regs' regs'') : SameBut r k regs regs'' := by
  intro j hj
  rw [h' j (by omega), h j (by omega)]

theorem SameBut.set (regs : Regs) (w : Word) : SameBut r (r + 1) regs (regs.set r w) := by
  intro j hj
  have hne : j ≠ r := by omega
  simp [Regs.set, hne]

theorem Clear.mono {r' n' : Nat} (h : Clear r n v) (hr : r ≤ r') (hn : n' ≤ n) :
    Clear r' n' v := by
  intro j hj
  have := h j hj
  omega

theorem Clear.eval_eq (hc : Clear r n v) (h : SameBut r n regs regs') :
    v.eval args regs' = v.eval args regs := by
  cases v with
  | const x => rfl
  | param i => rfl
  | reg j => exact h j (hc j rfl)

theorem Clear.word?_eq (hc : Clear r n v) (h : SameBut r n regs regs') :
    v.word? args regs' = v.word? args regs := by
  unfold Llvm.Value.word?
  rw [hc.eval_eq h]

theorem Holds.mono {x : Int64} {y : Value × Ty} (hx : Holds args regs x y) (hc : Clear r n y.1)
    (h : SameBut r n regs regs') : Holds args regs' x y := by
  obtain ⟨v, ty⟩ := y
  cases ty with
  | i64 => exact (hc.eval_eq h).trans hx
  | i1 =>
    obtain ⟨b, hb, hx⟩ := hx
    exact ⟨b, (hc.eval_eq h).trans hb, hx⟩

/-- The value made by widening is not touched by what comes after it. -/
theorem clear_widened {y : Value × Ty} (hc : Clear r k y.1) :
    Clear (r + (widened r y).1.length) k (widened r y).2 := by
  obtain ⟨v, ty⟩ := y
  cases ty with
  | i64 => exact hc.mono (by simp [widened]) (Nat.le_refl k)
  | i1 =>
    intro j hj
    have hj : r = j := by simpa [widened] using hj
    left
    simp [widened, ← hj]

theorem widened_spec {x : Int64} {y : Value × Ty} (hx : Holds args regs x y) (r : Nat) :
    ∃ regs', Llvm.runAll args (widened r y).1 regs = some regs' ∧
      (widened r y).2.word? args regs' = some x ∧
      SameBut r (r + (widened r y).1.length) regs regs' := by
  obtain ⟨v, ty⟩ := y
  cases ty with
  | i64 =>
    refine ⟨regs, rfl, ?_, SameBut.refl _ _ _⟩
    have hv : v.eval args regs = some (.word x) := hx
    simp [widened, Llvm.Value.word?, hv]
  | i1 =>
    obtain ⟨b, hb, rfl⟩ := hx
    refine ⟨regs.set r (.word (if b then 1 else 0)), ?_, ?_, SameBut.set regs _⟩
    · simp [widened, Llvm.runAll, Llvm.Rhs.compute, Llvm.Value.bit?, hb]
    · simp [widened, Llvm.Value.word?, Llvm.Value.eval, Regs.set]

theorem widenedAll_spec {xs : List Int64} {ys : List (Value × Ty)}
    (hn : r + (widenedAll r ys).1.length ≤ n)
    (h : List.Forall₂ (fun x y => Holds args regs x y ∧ Clear r n y.1) xs ys) :
    ∃ regs', Llvm.runAll args (widenedAll r ys).1 regs = some regs' ∧
      (widenedAll r ys).2.mapM (Llvm.Value.word? args regs') = some xs ∧
      SameBut r (r + (widenedAll r ys).1.length) regs regs' := by
  induction ys generalizing r regs xs with
  | nil =>
    cases h
    exact ⟨regs, rfl, rfl, SameBut.refl _ _ _⟩
  | cons y ys ih =>
    cases h with
    | @cons x _ xs _ hx hrest =>
      simp only [widenedAll, List.length_append] at hn ⊢
      obtain ⟨regs₁, hrun₁, hword₁, hsame₁⟩ := widened_spec hx.1 r
      have hy := clear_widened hx.2
      generalize (widened r y).1.length = one at *
      have hrest₁ : List.Forall₂ (fun x y => Holds args regs₁ x y ∧ Clear (r + one) n y.1) xs ys := by
        refine hrest.imp ?_
        rintro z y' ⟨hz, hc⟩
        exact ⟨hz.mono (hc.mono (Nat.le_refl r) (by omega)) hsame₁,
          hc.mono (by omega) (Nat.le_refl n)⟩
      obtain ⟨regs₂, hrun₂, hwords₂, hsame₂⟩ := ih (by omega) hrest₁
      refine ⟨regs₂, ?_, ?_, ?_⟩
      · rw [Llvm.runAll_append, hrun₁]
        exact hrun₂
      · -- the later instructions leave the first value alone
        have hfirst : (widened r y).2.word? args regs₂ = (widened r y).2.word? args regs₁ :=
          (hy.mono (Nat.le_refl _) (by omega)).word?_eq hsame₂
        rw [List.mapM_cons, hfirst, hword₁, hwords₂]
        rfl
      · rw [← Nat.add_assoc]
        exact hsame₁.trans (by omega) (by omega) hsame₂

theorem narrowed_spec {x : Int64} {y : Value × Ty} (hx : Holds args regs x y) (r : Nat) :
    ∃ regs', Llvm.runAll args (narrowed r y).1 regs = some regs' ∧
      (narrowed r y).2.bit? args regs' = some (x != 0) ∧
      SameBut r (r + (narrowed r y).1.length) regs regs' := by
  obtain ⟨v, ty⟩ := y
  cases ty with
  | i1 =>
    obtain ⟨b, hb, rfl⟩ := hx
    refine ⟨regs, rfl, ?_, SameBut.refl _ _ _⟩
    cases b <;> simp [narrowed, Llvm.Value.bit?, hb]
  | i64 =>
    have hv : v.eval args regs = some (.word x) := hx
    have hword : v.word? args regs = some x := by simp [Llvm.Value.word?, hv]
    have hzero : (Value.const 0).word? args regs = some 0 := rfl
    refine ⟨regs.set r (.bit (x != 0)), ?_, ?_, SameBut.set regs _⟩
    · simp [narrowed, Llvm.runAll, Llvm.Rhs.compute, hword, hzero, Llvm.Pred.holds]
    · simp [narrowed, Llvm.Value.bit?, Llvm.Value.eval, Regs.set]

end Registers

/-! ## Lowered code -/

/-- What the names of a function stand for in its lowered form: values, blocks, and
callees with the number of their parameters. -/
structure Names where
  value : ValueId → Option (Value × Ty)
  place : BlockId → Option Nat
  callee : String → Option Nat
  params : Nat → Option Nat

namespace Names

/-- What computes the result of an instruction from widened operands, with its type. -/
def rhs? (c : Names) (i : Instr) (vs : List Value) : Option (Llvm.Rhs × Ty) :=
  match i.op, vs with
  | .add, [x, y] => some (.arith .add x y, .i64)
  | .sub, [x, y] => some (.arith .sub x y, .i64)
  | .mul, [x, y] => some (.arith .mul x y, .i64)
  | .cmp, [x, y] => (Cond.ofName? i.cond).map fun cond => (.icmp (predOf cond) x y, .i1)
  | .call, vs =>
    (c.callee i.sym).bind fun k =>
      if c.params k = some vs.length then some (.call k vs, .i64) else none
  | _, _ => none

/-- What an instruction becomes: code with registers from `r` on, what ends the block,
and the value that stands for its result. -/
inductive Emits (c : Names) (r : Nat) (i : Instr) :
    List Llvm.Instr → Option Llvm.Term → Option (Value × Ty) → Prop
  | const : i.op = .const → Emits c r i [] none (some (.const i.imm, .i64))
  | arg : i.op = .arg → Emits c r i [] none (some (.param i.imm.toInt.toNat, .i64))
  | compute {ys rhs ty} : i.values.mapM c.value = some ys →
      c.rhs? i (widenedAll r ys).2 = some (rhs, ty) →
      Emits c r i ((widenedAll r ys).1 ++ [⟨r + (widenedAll r ys).1.length, rhs⟩]) none
        (some (.reg (r + (widenedAll r ys).1.length), ty))
  | br {b k} : i.op = .br → i.args = [.block b] → c.place b = some k →
      Emits c r i [] (some (.br (some k))) none
  | brif {v yes no ky kn y} : i.op = .brif → i.args = [.value v, .block yes, .block no] →
      c.value v = some y → c.place yes = some ky → c.place no = some kn →
      Emits c r i (narrowed r y).1 (some (.condBr (narrowed r y).2 (some ky) (some kn))) none
  | leave : i.op = .ret → i.args = [] → Emits c r i [] (some (.ret (.const 0))) none
  | ret {v y} : i.op = .ret → i.args = [.value v] → c.value v = some y →
      Emits c r i (widened r y).1 (some (.ret (widened r y).2)) none

/-- No value is in a register from `r` up to `n`. -/
def Free (c : Names) (r n : Nat) : Prop := ∀ v y, c.value v = some y → Clear r n y.1

/-- No value but `id` is in a register from `r` up to `n`. -/
def FreeBut (c : Names) (id : ValueId) (r n : Nat) : Prop :=
  ∀ v y, c.value v = some y → v ≠ id → Clear r n y.1

/-- The code of a block and its lowered form. -/
inductive Lowers (c : Names) : List Instr → List Llvm.Instr → Option Llvm.Term → Prop
  | step {i rest l code term y} {r : Nat} : c.Emits r i l none (some y) → c.value i.id = some y →
      c.FreeBut i.id r (r + l.length) → Lowers c rest code term →
      Lowers c (i :: rest) (l ++ code) term
  | last {i l term} {r : Nat} : c.Emits r i l (some term) none → c.Free r (r + l.length) →
      Lowers c [i] l (some term)

/-- The registers hold the values known. -/
def Agrees (c : Names) (args : List Int64) (env : Env) (regs : Regs) : Prop :=
  ∀ v x, env v = some x → ∀ y, c.value v = some y → Holds args regs x y

section Agrees

variable {c : Names} {args : List Int64} {env : Env} {regs regs' : Regs} {r n : Nat}

theorem Agrees.sameBut (h : c.Agrees args env regs) (hf : c.Free r n) (hs : SameBut r n regs regs') :
    c.Agrees args env regs' :=
  fun v x hx y hy => (h v x hx y hy).mono (hf v y hy) hs

/-- A value that needs no register is held once it is known. -/
theorem Agrees.known (h : c.Agrees args env regs) {id : ValueId} {x : Int64} {y : Value × Ty}
    (hy : c.value id = some y) (hx : Holds args regs x y) :
    c.Agrees args (env.set id x) regs := by
  intro v z hz y' hy'
  unfold Env.set at hz
  split at hz
  · rename_i hv
    subst hv
    rw [hy] at hy'
    cases hy'
    cases hz
    exact hx
  · exact h v z hz y' hy'

/-- A result is put in the register that belongs to it. -/
theorem Agrees.set (h : c.Agrees args env regs) {id : ValueId} {x : Int64} {ty : Ty} {w : Word}
    (hy : c.value id = some (.reg n, ty)) (ho : c.FreeBut id n (n + 1))
    (hx : Holds args (regs.set n w) x (.reg n, ty)) :
    c.Agrees args (env.set id x) (regs.set n w) := by
  intro v z hz y' hy'
  unfold Env.set at hz
  split at hz
  · rename_i hv
    subst hv
    rw [hy] at hy'
    cases hy'
    cases hz
    exact hx
  · rename_i hv
    exact (h v z hz y' hy').mono (ho v y' hy' hv) (SameBut.set regs w)

/-- The register of a result is past those that its operands are widened in. -/
theorem FreeBut.free {id : ValueId} {ty : Ty} (h : c.FreeBut id r (n + 1))
    (hy : c.value id = some (.reg n, ty)) : c.Free r n := by
  intro v y hv
  by_cases hid : v = id
  · subst hid
    rw [hy] at hv
    cases hv
    intro k hk
    cases hk
    exact .inr (Nat.le_refl n)
  · exact (h v y hv hid).mono (Nat.le_refl r) (Nat.le_succ n)

theorem Agrees.operands (h : c.Agrees args env regs) (hf : c.Free r n) {vs : List ValueId}
    {xs : List Int64} {ys : List (Value × Ty)} (hxs : vs.mapM env = some xs)
    (hys : vs.mapM c.value = some ys) :
    List.Forall₂ (fun x y => Holds args regs x y ∧ Clear r n y.1) xs ys := by
  rw [mapM_eq_some] at hxs hys
  induction hxs generalizing ys with
  | nil =>
    cases hys
    exact .nil
  | @cons v x vs xs hx _ ih =>
    cases hys with
    | cons hy hys => exact .cons ⟨h v x hx _ hy, hf v _ hy⟩ (ih hys)

end Agrees

/-! ## What is computed -/

section Compute

variable {c : Names} {i : Instr} {vs : List Value} {rhs : Llvm.Rhs} {ty : Ty} {args : List Int64}
  {regs : Regs} {xs : List Int64}

theorem holds_word (n : Nat) (x : Int64) : Holds args (regs.set n (.word x)) x (.reg n, .i64) := by
  simp [Holds, Llvm.Value.eval, Regs.set]

theorem holds_bit (n : Nat) (b : Bool) :
    Holds args (regs.set n (.bit b)) (if b then 1 else 0) (.reg n, .i1) :=
  ⟨b, by simp [Llvm.Value.eval, Regs.set], rfl⟩

theorem holds_predOf (cond : Cond) (x y : Int64) : (predOf cond).holds x y = cond.holds x y := by
  cases cond <;> rfl

/-- What an instruction with a lowered result is: an operation on two numbers, a
comparison, or a call. -/
theorem rhs?_cases (h : c.rhs? i vs = some (rhs, ty)) :
    (∃ op x y, vs = [x, y] ∧ rhs = .arith op x y ∧ ty = .i64 ∧
      ∀ args xs, i.act args xs = .ofTwo op.apply xs) ∨
    (∃ cond x y, vs = [x, y] ∧ rhs = .icmp (predOf cond) x y ∧ ty = .i1 ∧
      ∀ args xs, i.act args xs = .ofTwo (fun x y => if cond.holds x y then 1 else 0) xs) ∨
    ∃ k, c.callee i.sym = some k ∧ c.params k = some vs.length ∧ rhs = .call k vs ∧ ty = .i64 ∧
      ∀ args xs, i.act args xs = .call { callee := i.sym, args := xs } := by
  unfold rhs? at h
  split at h
  · rename_i x y hop
    cases h
    exact .inl ⟨.add, x, y, rfl, rfl, rfl, fun args xs => by simp only [Instr.act, hop]; rfl⟩
  · rename_i x y hop
    cases h
    exact .inl ⟨.sub, x, y, rfl, rfl, rfl, fun args xs => by simp only [Instr.act, hop]; rfl⟩
  · rename_i x y hop
    cases h
    exact .inl ⟨.mul, x, y, rfl, rfl, rfl, fun args xs => by simp only [Instr.act, hop]; rfl⟩
  · rename_i x y hop
    obtain ⟨cond, hcond, hr⟩ := Option.map_eq_some_iff.mp h
    cases hr
    exact .inr (.inl ⟨cond, x, y, rfl, rfl, rfl,
      fun args xs => by simp only [Instr.act, hop, hcond]⟩)
  · rename_i hop
    obtain ⟨k, hk, hr⟩ := Option.bind_eq_some_iff.mp h
    split at hr
    · rename_i hparams
      cases hr
      exact .inr (.inr ⟨k, hk, hparams, rfl, rfl, fun args xs => by simp only [Instr.act, hop]⟩)
    · cases hr
  · cases h

/-- What an operation gives is what is computed from the widened operands. -/
theorem rhs?_give {x : Int64} (h : c.rhs? i vs = some (rhs, ty))
    (hvs : vs.mapM (Llvm.Value.word? args regs) = some xs) (hact : i.act args xs = .give x) :
    ∃ w, rhs.compute args regs = some w ∧ ∀ n, Holds args (regs.set n w) x (.reg n, ty) := by
  rcases rhs?_cases h with ⟨op, u, v, rfl, rfl, rfl, hall⟩ | ⟨cond, u, v, rfl, rfl, rfl, hall⟩ |
    ⟨k, -, -, rfl, rfl, hall⟩
  · obtain ⟨a, b, ha, hb, rfl⟩ := mapM_two hvs
    cases (hall args [a, b]).symm.trans hact
    exact ⟨.word (op.apply a b), by simp [Llvm.Rhs.compute, ha, hb], fun n => holds_word n _⟩
  · obtain ⟨a, b, ha, hb, rfl⟩ := mapM_two hvs
    cases (hall args [a, b]).symm.trans hact
    refine ⟨.bit (cond.holds a b), ?_, fun n => holds_bit n _⟩
    simp [Llvm.Rhs.compute, ha, hb, holds_predOf]
  · cases (hall args xs).symm.trans hact

/-- An instruction with a lowered result fails, gives a number, or calls. -/
theorem rhs?_act (h : c.rhs? i vs = some (rhs, ty)) (args xs : List Int64) :
    i.act args xs = .fail ∨ (∃ x, i.act args xs = .give x) ∨
    (i.act args xs = .call { callee := i.sym, args := xs } ∧ ty = .i64 ∧
      ∃ k, c.callee i.sym = some k ∧ c.params k = some vs.length ∧ rhs = .call k vs) := by
  rcases rhs?_cases h with ⟨op, u, v, -, -, -, hall⟩ | ⟨cond, u, v, -, -, -, hall⟩ |
    ⟨k, hk, hparams, hrhs, hty, hall⟩
  · rw [hall args xs]
    exact (Deed.ofTwo_cases _ xs).imp_right .inl
  · rw [hall args xs]
    exact (Deed.ofTwo_cases _ xs).imp_right .inl
  · exact .inr (.inr ⟨hall args xs, hty, k, hk, hparams, hrhs⟩)

end Compute

end Names

end Lower

end FlowGraph
