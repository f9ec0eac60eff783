import FlowGraph.Proofs.Lowerable

/-!
The registers of lowered code. Each instruction fills a register that was not
used before, so registers rise along a block and no two instructions fill the
same one. What an instruction reads is a register of its own operands, or one
that was filled for it just before.
-/

namespace FlowGraph

open Llvm (Value Ty)

/-! ## What is read -/

namespace Llvm

/-- The register that a value is in, if it is in one. -/
def Value.reads : Value → List Nat
  | reg n => [n]
  | _ => []

/-- The registers that a computation reads, in order. -/
def Rhs.reads : Rhs → List Nat
  | arith _ x y => x.reads ++ y.reads
  | icmp _ x y => x.reads ++ y.reads
  | zext x => x.reads
  | call _ xs => xs.flatMap Value.reads

def Term.reads : Term → List Nat
  | br _ => []
  | condBr c _ _ => c.reads
  | ret x => x.reads

/-- The registers that code reads, and what ends it. -/
def readsOf (l : List Instr) (t : Option Term) : List Nat :=
  l.flatMap (·.rhs.reads) ++ (t.map (·.reads)).getD []

@[simp] theorem Value.mem_reads {v : Value} {x : Nat} : x ∈ v.reads ↔ v = .reg x := by
  cases v <;> simp [reads, eq_comm]

/-- A function in which each register is filled once, in rising order along each block, and
each instruction reads registers below its own. -/
structure Function.Tidy (f : Function) : Prop where
  low : ∀ (k : Nat) b, f.blocks[k]? = some b → ∀ i ∈ b.code, i.reg < f.regs
  once : ∀ (k k' : Nat) b b', f.blocks[k]? = some b → f.blocks[k']? = some b' →
    ∀ i ∈ b.code, ∀ j ∈ b'.code, i.reg = j.reg → k = k'
  rising : ∀ (k : Nat) b, f.blocks[k]? = some b → b.code.Pairwise fun i j => i.reg < j.reg
  below : ∀ (k : Nat) b, f.blocks[k]? = some b → ∀ i ∈ b.code, ∀ x ∈ i.rhs.reads, x < i.reg

end Llvm

namespace Lower

/-! ## Code for one instruction -/

/-- Code in registers from `r` on that reads the registers `ins`, and leaves `out` to be read
after it. -/
structure Reading (r : Nat) (ins : List Nat) (l : List Llvm.Instr) (out : List Nat) : Prop where
  regs : l.map (·.reg) = List.range' r l.length
  known : ∀ i ∈ l, ∀ x ∈ i.rhs.reads, (r ≤ x ∧ x < i.reg) ∨ x ∈ ins
  after : ∀ x ∈ out, (r ≤ x ∧ x < r + l.length) ∨ x ∈ ins
  all : ∀ x ∈ ins, (∃ i ∈ l, x ∈ i.rhs.reads) ∨ x ∈ out

namespace Reading

variable {r : Nat} {ins ins' out out' : List Nat} {l l' : List Llvm.Instr} {rhs : Llvm.Rhs}

theorem nil (r : Nat) (ins : List Nat) : Reading r ins [] ins :=
  ⟨rfl, by simp, fun _ hx => .inr hx, fun _ hx => .inr hx⟩

theorem mem_regs (h : Reading r ins l out) {x : Nat} :
    x ∈ l.map (·.reg) ↔ r ≤ x ∧ x < r + l.length := by
  rw [h.regs, List.mem_range'_1]

theorem mem_ins_of_read (h : Reading r ins l out) {x : Nat}
    (hx : x ∈ l.flatMap (·.rhs.reads) ++ out) : x ∈ l.map (·.reg) ∨ x ∈ ins := by
  rw [h.mem_regs]
  rcases List.mem_append.mp hx with hx | hx
  · obtain ⟨i, hi, hx⟩ := List.mem_flatMap.mp hx
    have hlt := (h.mem_regs.mp (List.mem_map_of_mem hi)).2
    exact (h.known i hi x hx).imp_left fun hx => ⟨hx.1, Nat.lt_trans hx.2 hlt⟩
  · exact h.after x hx

theorem read_of_mem_ins (h : Reading r ins l out) {x : Nat} (hx : x ∈ ins) :
    x ∈ l.flatMap (·.rhs.reads) ++ out := by
  rcases h.all x hx with ⟨i, hi, hx⟩ | hx
  · exact List.mem_append_left _ (List.mem_flatMap.mpr ⟨i, hi, hx⟩)
  · exact List.mem_append_right _ hx

theorem append (h : Reading r ins l out) (h' : Reading (r + l.length) ins' l' out') :
    Reading r (ins ++ ins') (l ++ l') (out ++ out') := by
  refine ⟨?_, ?_, ?_, ?_⟩
  · rw [List.map_append, h.regs, h'.regs, List.range'_append_1, List.length_append]
  · intro i hi x hx
    rcases List.mem_append.mp hi with hi | hi
    · exact (h.known i hi x hx).imp_right (List.mem_append_left ins')
    · rcases h'.known i hi x hx with ⟨hle, hlt⟩ | hx
      · exact .inl ⟨by omega, hlt⟩
      · exact .inr (List.mem_append_right ins hx)
  · intro x hx
    rw [List.length_append]
    rcases List.mem_append.mp hx with hx | hx
    · rcases h.after x hx with hr | hx
      · exact .inl (by omega)
      · exact .inr (List.mem_append_left ins' hx)
    · rcases h'.after x hx with hr | hx
      · exact .inl (by omega)
      · exact .inr (List.mem_append_right ins hx)
  · intro x hx
    simp only [List.mem_append, or_and_right, exists_or]
    rcases List.mem_append.mp hx with hx | hx
    · have := h.all x hx
      grind
    · have := h'.all x hx
      grind

/-- What was left to be read is read by one more instruction. -/
theorem compute (h : Reading r ins l rhs.reads) :
    Reading r ins (l ++ [⟨r + l.length, rhs⟩]) [] := by
  refine ⟨?_, ?_, by simp, ?_⟩
  · rw [List.map_append, h.regs, List.length_append, List.length_singleton, List.range'_1_concat]
    rfl
  · intro i hi x hx
    rcases List.mem_append.mp hi with hi | hi
    · exact h.known i hi x hx
    · rw [List.mem_singleton] at hi
      subst hi
      exact h.after x hx
  · intro x hx
    left
    rcases h.all x hx with ⟨i, hi, hx⟩ | hx
    · exact ⟨i, List.mem_append_left _ hi, hx⟩
    · exact ⟨_, List.mem_append_right _ List.mem_cons_self, hx⟩

/-- A value that one instruction turns into another. -/
theorem single (r : Nat) (rhs : Llvm.Rhs) : Reading r rhs.reads [⟨r, rhs⟩] [r] := by
  refine ⟨rfl, ?_, by simp, ?_⟩
  · simp +contextual
  · simp +contextual

end Reading

theorem widened_reading (r : Nat) (y : Value × Ty) :
    Reading r y.1.reads (widened r y).1 (widened r y).2.reads := by
  obtain ⟨v, ty⟩ := y
  cases ty with
  | i64 => exact .nil r _
  | i1 => exact .single r (.zext v)

theorem narrowed_reading (r : Nat) (y : Value × Ty) :
    Reading r y.1.reads (narrowed r y).1 (narrowed r y).2.reads := by
  obtain ⟨v, ty⟩ := y
  cases ty with
  | i1 => exact .nil r _
  | i64 =>
    have h := Reading.single r (.icmp .ne v (.const 0))
    rwa [show (Llvm.Rhs.icmp .ne v (.const 0)).reads = v.reads from List.append_nil _] at h

theorem widenedAll_reading (r : Nat) (ys : List (Value × Ty)) :
    Reading r (ys.flatMap (·.1.reads)) (widenedAll r ys).1
      ((widenedAll r ys).2.flatMap Value.reads) := by
  induction ys generalizing r with
  | nil => exact .nil r []
  | cons y ys ih => exact (widened_reading r y).append (ih _)

theorem Names.reads_rhs? {c : Names} {i : Instr} {vs : List Value} {rhs : Llvm.Rhs} {ty : Ty}
    (h : c.rhs? i vs = some (rhs, ty)) : rhs.reads = vs.flatMap Value.reads := by
  rcases Names.rhs?_cases h with ⟨op, x, y, rfl, rfl, -⟩ | ⟨cond, x, y, rfl, rfl, -⟩ |
    ⟨k, -, -, rfl, -⟩
  · simp [Llvm.Rhs.reads]
  · simp [Llvm.Rhs.reads]
  · rfl

/-- The value of a number is in the register. -/
def Names.InReg (c : Names) (v : ValueId) (x : Nat) : Prop := ∃ ty, c.value v = some (.reg x, ty)

theorem Names.mem_reads {c : Names} {vs : List ValueId} {ys : List (Value × Ty)}
    (h : vs.mapM c.value = some ys) {x : Nat} :
    x ∈ ys.flatMap (·.1.reads) ↔ ∃ v ∈ vs, c.InReg v x := by
  rw [mapM_eq_some] at h
  induction h with
  | nil => simp
  | @cons v y vs ys hy _ ih =>
    obtain ⟨z, ty⟩ := y
    simp only [List.flatMap_cons, List.mem_append, ih, Llvm.Value.mem_reads, List.exists_mem_cons_iff]
    simp [Names.InReg, hy, eq_comm]

/-- A constant or an argument names no value. -/
def Bare (i : Instr) : Prop := i.op = .const ∨ i.op = .arg → i.values = []

/-- The result of an instruction is computed: it is no constant, no argument, and no
terminator. -/
def Computes (i : Instr) : Prop := i.isTerminator = false ∧ i.op ≠ .const ∧ i.op ≠ .arg

section Emits

variable {c : Names} {r : Nat} {i : Instr} {l : List Llvm.Instr} {term : Option Llvm.Term}
  {y : Option (Value × Ty)}

/-- The code of an instruction reads the registers of the values that it names, and only
those. -/
theorem Names.Emits.reading (h : c.Emits r i l term y) (hbare : Bare i) :
    ∃ ys, i.values.mapM c.value = some ys ∧
      Reading r (ys.flatMap (·.1.reads)) l ((term.map (·.reads)).getD []) := by
  cases h with
  | const hop => exact ⟨[], by rw [hbare (.inl hop)]; rfl, .nil r []⟩
  | arg hop => exact ⟨[], by rw [hbare (.inr hop)]; rfl, .nil r []⟩
  | @compute ys rhs ty hys hrhs =>
    refine ⟨ys, hys, Reading.compute ?_⟩
    rw [Names.reads_rhs? hrhs]
    exact widenedAll_reading r ys
  | br hop hargs =>
    have hvalues : i.values = [] := by simp [Action.values, hargs, Operand.value?]
    exact ⟨[], by rw [hvalues]; rfl, .nil r []⟩
  | @brif v _ _ _ _ y hop hargs hy =>
    have hvalues : i.values = [v] := by simp [Action.values, hargs, Operand.value?]
    refine ⟨[y], by simp [hvalues, hy], ?_⟩
    rw [List.flatMap_singleton]
    exact narrowed_reading r y
  | leave hop hargs =>
    have hvalues : i.values = [] := by simp [Action.values, hargs]
    exact ⟨[], by rw [hvalues]; rfl, .nil r []⟩
  | @ret v y hop hargs hy =>
    have hvalues : i.values = [v] := by simp [Action.values, hargs, Operand.value?]
    refine ⟨[y], by simp [hvalues, hy], ?_⟩
    rw [List.flatMap_singleton]
    exact widened_reading r y

theorem Names.Emits.computes {z : Value × Ty} (h : c.Emits r i l term (some z)) :
    Computes i ↔ ∃ x, z.1 = .reg x := by
  have hkind := h.kind
  cases h with
  | const hop => simp [Computes, hop]
  | arg hop => simp [Computes, hop]
  | compute hys hrhs =>
    have hop : i.op ≠ .const ∧ i.op ≠ .arg := by
      unfold Names.rhs? at hrhs
      constructor
      · intro hop
        simp [hop] at hrhs
      · intro hop
        simp [hop] at hrhs
    simpa [Computes, hop] using hkind

end Emits

/-! ## Code of one block -/

section Lowers

variable {c : Names} {code : List Instr} {l : List Llvm.Instr} {term : Option Llvm.Term}

/-- What a block reads is filled in it, or is in the register of a value that it names. -/
theorem Names.Lowers.cases_of_read (h : c.Lowers code l term) (hbare : ∀ i ∈ code, Bare i) {x : Nat}
    (hx : x ∈ Llvm.readsOf l term) :
    x ∈ l.map (·.reg) ∨ ∃ i ∈ code, ∃ v ∈ i.values, c.InReg v x := by
  induction h with
  | @step i rest l code term y r hem _ _ _ ih =>
    obtain ⟨hi, hrest⟩ := List.forall_mem_cons.mp hbare
    rw [Llvm.readsOf, List.flatMap_append, List.append_assoc] at hx
    rw [List.map_append, List.mem_append, List.exists_mem_cons_iff]
    rcases List.mem_append.mp hx with hx | hx
    · obtain ⟨ys, hys, hreading⟩ := hem.reading hi
      rcases hreading.mem_ins_of_read (List.mem_append_left _ hx) with hx | hx
      · exact .inl (.inl hx)
      · exact .inr (.inl ((Names.mem_reads hys).mp hx))
    · rcases ih hrest hx with hx | hx
      · exact .inl (.inr hx)
      · exact .inr (.inr hx)
  | @last i l t r hem _ =>
    obtain ⟨ys, hys, hreading⟩ := hem.reading (hbare i List.mem_cons_self)
    rcases hreading.mem_ins_of_read hx with hx | hx
    · exact .inl hx
    · exact .inr ⟨i, List.mem_cons_self, (Names.mem_reads hys).mp hx⟩

/-- The register of each value that a block names is read in it. -/
theorem Names.Lowers.mem_readsOf (h : c.Lowers code l term) (hbare : ∀ i ∈ code, Bare i)
    {i : Instr} (hi : i ∈ code) {v : ValueId} (hv : v ∈ i.values) {x : Nat} (hx : c.InReg v x) :
    x ∈ Llvm.readsOf l term := by
  induction h with
  | @step j rest l code term y r hem _ _ _ ih =>
    obtain ⟨hbj, hrest⟩ := List.forall_mem_cons.mp hbare
    rw [Llvm.readsOf, List.flatMap_append, List.append_assoc]
    rcases List.mem_cons.mp hi with rfl | hi
    · obtain ⟨ys, hys, hreading⟩ := hem.reading hbj
      have hread := hreading.read_of_mem_ins ((Names.mem_reads hys).mpr ⟨v, hv, hx⟩)
      exact List.mem_append_left _ (by simpa using hread)
    · exact List.mem_append_right _ (ih hrest hi)
  | @last j l t r hem _ =>
    rw [List.mem_singleton] at hi
    subst hi
    obtain ⟨ys, hys, hreading⟩ := hem.reading (hbare i List.mem_cons_self)
    exact hreading.read_of_mem_ins ((Names.mem_reads hys).mpr ⟨v, hv, hx⟩)

/-- A result that is computed is in a register that its block fills. Any other is in none. -/
theorem Names.Lowers.result (h : c.Lowers code l term) {i : Instr} (hi : i ∈ code)
    (hends : i.isTerminator = false) :
    (Computes i ↔ ∃ x, c.InReg i.id x) ∧ ∀ x, c.InReg i.id x → x ∈ l.map (·.reg) := by
  induction h with
  | @step j rest l code term y r hem hy _ _ ih =>
    rcases List.mem_cons.mp hi with rfl | hi
    · obtain ⟨z, ty⟩ := y
      refine ⟨?_, ?_⟩
      · rw [hem.computes]
        simp [Names.InReg, hy]
      · rintro x ⟨ty', hx⟩
        rw [hy] at hx
        cases hx
        rw [List.map_append]
        cases hem with
        | compute hys hrhs => simp
    · obtain ⟨hcomputes, hfills⟩ := ih hi
      refine ⟨hcomputes, fun x hx => ?_⟩
      rw [List.map_append]
      exact List.mem_append_right _ (hfills x hx)
  | @last j l t r hem _ =>
    rw [List.mem_singleton] at hi
    subst hi
    rcases hem.kind with ⟨hyes, -⟩ | ⟨-, hnone, -⟩
    · rw [hends] at hyes
      cases hyes
    · cases hnone

/-- A block leads to the places of the blocks that its last instruction names. -/
theorem Names.Lowers.targets (h : c.Lowers code l term) :
    ∃ (i : Instr) (t : Llvm.Term) (ks : List Nat), code.getLast? = some i ∧
      i.isTerminator = true ∧ term = some t ∧ t.targets = ks.map some ∧
      i.targets.map c.place = ks.map some := by
  induction h with
  | step _ _ _ hrest ih =>
    obtain ⟨i, t, ks, hlast, hfacts⟩ := ih
    refine ⟨i, t, ks, ?_, hfacts⟩
    rw [List.getLast?_cons, hlast]
    rfl
  | @last i l t r hem _ =>
    have hends : i.isTerminator = true := by
      rcases hem.kind with ⟨hyes, -⟩ | ⟨-, hnone, -⟩
      · exact hyes
      · cases hnone
    have htargets : ∀ args, i.args = args → i.targets = args.filterMap Operand.block? := by
      rintro args rfl
      rfl
    cases hem with
    | @br b k hop hargs hk =>
      refine ⟨i, _, [k], rfl, hends, rfl, rfl, ?_⟩
      rw [htargets _ hargs, List.map_singleton, ← hk]
      rfl
    | @brif v yes no ky kn y hop hargs hv hyes hno =>
      refine ⟨i, _, [ky, kn], rfl, hends, rfl, rfl, ?_⟩
      rw [htargets _ hargs, List.map_cons, List.map_singleton, ← hyes, ← hno]
      rfl
    | leave hop hargs => exact ⟨i, _, [], rfl, hends, rfl, rfl, by rw [htargets _ hargs]; rfl⟩
    | ret hop hargs hv => exact ⟨i, _, [], rfl, hends, rfl, rfl, by rw [htargets _ hargs]; rfl⟩

end Lowers

/-! ## All code of a function -/

/-- Code in new registers, put at the end of a block. -/
theorem Reading.tidy {f : Llvm.Function} {ins out : List Nat} {l : List Llvm.Instr}
    (h : Reading f.regs ins l out) (hins : ∀ x ∈ ins, x < f.regs) (hf : f.Tidy) (k : Nat)
    (t : Option Llvm.Term) : (f.extend k l t).Tidy := by
  have hnew : ∀ i ∈ l, f.regs ≤ i.reg ∧ i.reg < f.regs + l.length := fun i hi =>
    h.mem_regs.mp (List.mem_map_of_mem hi)
  -- a block of the function, and what was put at its end
  have hblock : ∀ j b, (f.extend k l t).blocks[j]? = some b → ∃ b₀ l₀, f.blocks[j]? = some b₀ ∧
      b.code = b₀.code ++ l₀ ∧ (j = k ∧ l₀ = l ∨ j ≠ k ∧ l₀ = []) := by
    intro j b hb
    rw [Llvm.Function.extend_getElem?] at hb
    split at hb
    · rename_i hj
      obtain ⟨b₀, hb₀, rfl⟩ := Option.map_eq_some_iff.mp hb
      exact ⟨b₀, l, hj ▸ hb₀, rfl, .inl ⟨hj, rfl⟩⟩
    · rename_i hj
      exact ⟨b, [], hb, (List.append_nil _).symm, .inr ⟨hj, rfl⟩⟩
  have hmem : ∀ j b, (f.extend k l t).blocks[j]? = some b → ∀ i ∈ b.code,
      (∃ b₀, f.blocks[j]? = some b₀ ∧ i ∈ b₀.code) ∨ (j = k ∧ i ∈ l) := by
    intro j b hb i hi
    obtain ⟨b₀, l₀, hb₀, hcode, hl₀⟩ := hblock j b hb
    rw [hcode, List.mem_append] at hi
    rcases hi with hi | hi
    · exact .inl ⟨b₀, hb₀, hi⟩
    · rcases hl₀ with ⟨rfl, rfl⟩ | ⟨-, rfl⟩
      · exact .inr ⟨rfl, hi⟩
      · cases hi
  refine ⟨?_, ?_, ?_, ?_⟩
  · intro j b hb i hi
    show i.reg < f.regs + l.length
    rcases hmem j b hb i hi with ⟨b₀, hb₀, hi⟩ | ⟨-, hi⟩
    · exact Nat.lt_of_lt_of_le (hf.low j b₀ hb₀ i hi) (Nat.le_add_right _ _)
    · exact (hnew i hi).2
  · intro j j' b b' hb hb' i hi i' hi' heq
    rcases hmem j b hb i hi with ⟨b₀, hb₀, hi⟩ | ⟨rfl, hi⟩
    · rcases hmem j' b' hb' i' hi' with ⟨b₀', hb₀', hi'⟩ | ⟨-, hi'⟩
      · exact hf.once j j' b₀ b₀' hb₀ hb₀' i hi i' hi' heq
      · have := hf.low j b₀ hb₀ i hi
        have := hnew i' hi'
        omega
    · rcases hmem j' b' hb' i' hi' with ⟨b₀', hb₀', hi'⟩ | ⟨rfl, -⟩
      · have := hf.low j' b₀' hb₀' i' hi'
        have := hnew i hi
        omega
      · rfl
  · intro j b hb
    obtain ⟨b₀, l₀, hb₀, hcode, hl₀⟩ := hblock j b hb
    have hrise : l.Pairwise fun i j => i.reg < j.reg := by
      rw [← List.pairwise_map, h.regs]
      exact List.pairwise_lt_range'
    rw [hcode]
    rcases hl₀ with ⟨-, rfl⟩ | ⟨-, rfl⟩
    · refine List.pairwise_append.mpr ⟨hf.rising j b₀ hb₀, hrise, ?_⟩
      intro i hi i' hi'
      exact Nat.lt_of_lt_of_le (hf.low j b₀ hb₀ i hi) (hnew i' hi').1
    · rw [List.append_nil]
      exact hf.rising j b₀ hb₀
  · intro j b hb i hi x hx
    rcases hmem j b hb i hi with ⟨b₀, hb₀, hi⟩ | ⟨-, hi⟩
    · exact hf.below j b₀ hb₀ i hi x hx
    · rcases h.known i hi x hx with ⟨-, hlt⟩ | hx
      · exact hlt
      · exact Nat.lt_of_lt_of_le (hins x hx) (hnew i hi).1

/-- An instruction keeps a function tidy. -/
theorem Adds.tidy {s : Symbols} {f f' : Frame} {k : Nat} {i : Instr} (h : Adds s f f' k i)
    (hbare : Bare i) (hlow : f.Low) (hf : f.function.Tidy) : f'.function.Tidy := by
  obtain ⟨l, term, y, hem, rfl⟩ := h
  obtain ⟨ys, hys, hreading⟩ := hem.reading hbare
  refine hreading.tidy ?_ hf k term
  intro x hx
  obtain ⟨v, -, ty, hv⟩ := (Names.mem_reads hys).mp hx
  exact hlow _ (mem_of_lookup hv) x rfl

theorem steps_tidy {s s' : Symbols} {f f' : Frame} {count : Nat} {ws : List (Nat × Instr)}
    (hs : s.Sound count) (hable : AbleAll f ws) (hbare : ∀ w ∈ ws, Bare w.2)
    (h : ws.foldlM lowerStep (s, f) = .ok (s', f')) (hlow : f.Low) (hf : f.function.Tidy) :
    f'.function.Tidy := by
  induction ws generalizing s f with
  | nil =>
    cases h
    exact hf
  | cons w ws ih =>
    obtain ⟨⟨s₁, f₁⟩, hone, hrest⟩ := bind_eq_ok.mp h
    obtain ⟨hw, hin⟩ := hable w List.mem_cons_self
    obtain ⟨hbw, hbws⟩ := List.forall_mem_cons.mp hbare
    obtain ⟨-, hsound, hadds⟩ := lowerInstr_spec hs hw.fits hw.paired hin hone
    exact ih hsound (hable.tail hadds.grows.blocks) hbws hrest (hadds.grows.low hlow)
      (hadds.tidy hbw hlow hf)

/-- A function stays tidy when blocks without code are added. -/
theorem tidy_append {f : Llvm.Function} {more : List Llvm.Block} (hf : f.Tidy)
    (hmore : ∀ b ∈ more, b.code = []) :
    Llvm.Function.Tidy { f with blocks := f.blocks ++ more } := by
  have hold : ∀ (k : Nat) b, (f.blocks ++ more)[k]? = some b → ∀ i ∈ b.code,
      f.blocks[k]? = some b := by
    intro k b hb i hi
    rcases Nat.lt_or_ge k f.blocks.length with hlt | hge
    · rwa [List.getElem?_append_left hlt] at hb
    · rw [List.getElem?_append_right hge] at hb
      rw [hmore b (List.mem_of_getElem? hb)] at hi
      cases hi
  refine ⟨?_, ?_, ?_, ?_⟩
  · exact fun k b hb i hi => hf.low k b (hold k b hb i hi) i hi
  · intro k k' b b' hb hb' i hi j hj
    exact hf.once k k' b b' (hold k b hb i hi) (hold k' b' hb' j hj) i hi j hj
  · intro k b hb
    cases hcode : b.code with
    | nil => exact .nil
    | cons i rest => exact hcode ▸ hf.rising k b (hold k b hb i (by simp [hcode]))
  · exact fun k b hb i hi => hf.below k b (hold k b hb i hi) i hi

theorem LoweredBy.tidy {s s' : Symbols} {place count : Nat} {g : Graph} {function : Llvm.Function}
    {e : BlockId} {entry : Block} {bs : List Block} {last : Symbols × Frame}
    (h : LoweredBy s s' place g function e entry bs last) (hs : s.Sound count) (hg : Regular g)
    (hbare : ∀ i ∈ g.instrs, Bare i) (hf : function.Tidy) : last.2.function.Tidy := by
  have he := h.mem_entry hg.wellFormed
  refine steps_tidy hs (h.able hg) ?_ h.run ?_ ?_
  · exact fun w hw => hbare _ (h.mem_instrs hg.wellFormed hw)
  · intro v hv
    rw [(openFrame_head function g entry).1] at hv
    cases hv
  · obtain ⟨more, heq, hmore⟩ := openFrame_bare hg.wellFormed he h.enters.2 function
    rw [heq]
    exact tidy_append hf hmore

end Lower

/-- The functions of a lowered program are tidy. -/
theorem Program.lower_tidy {p : Program} {m : Llvm.Module}
    (hreg : ∀ g ∈ p.functions, Lower.Regular g) (hnames : (p.functions.map (·.name)).Nodup)
    (hbare : ∀ g ∈ p.functions, ∀ i ∈ g.instrs, Lower.Bare i) (h : p.lower = .ok m) :
    ∀ f ∈ m.functions, f.Tidy := by
  refine lower_all hreg hnames h ?_ ?_
  · intro f hf
    constructor <;> simp [hf]
  · intro g hg _ _ _ _ _ _ _ _ _ hs hlowered
    exact hlowered.tidy hs (hreg g hg) (hbare g hg)

end FlowGraph
