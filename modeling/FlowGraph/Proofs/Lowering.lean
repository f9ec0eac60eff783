import FlowGraph.Proofs.LoweringCases
import FlowGraph.Proofs.LoweringSimulation
import FlowGraph.Proofs.WellFormed

/-!
What lowering leaves. Each instruction adds code to the block of its own, in
registers not used before, and names a value not named before. So in the end
the code of each block is what its instructions become, whatever was lowered
before or after.
-/

namespace FlowGraph

open Llvm (Value Ty)

/-! ## Code put at the end of a block -/

namespace Llvm.Function

/-- The function with instructions put at the end of a block, and the block ended, if at all. -/
def extend (f : Function) (k : Nat) (l : List Instr) (t : Option Term) : Function :=
  { f with
    blocks := f.blocks.modify k (fun b => { b with code := b.code ++ l, term := t.or b.term })
    regs := f.regs + l.length }

variable (f : Function) (k : Nat)

theorem emit_eq (rhs : Rhs) : f.emit k rhs = f.extend k [⟨f.regs, rhs⟩] none := rfl

theorem terminate_eq (t : Term) : f.terminate k t = f.extend k [] (some t) := by
  simp [terminate, extend]

theorem extend_nil : f.extend k [] none = f := by
  have hid : (fun b : Block => { b with
      code := b.code ++ [], term := (none : Option Term).or b.term }) = id := by
    funext b
    simp
  unfold extend
  rw [hid, List.modify_id]
  rfl

theorem extend_extend (l l' : List Instr) (t t' : Option Term) :
    (f.extend k l t).extend k l' t' = f.extend k (l ++ l') (t'.or t) := by
  simp [extend, List.modify_modify_eq, Function.comp_def, Option.or_assoc, Nat.add_assoc]

theorem extend_getElem? (l : List Instr) (t : Option Term) (j : Nat) :
    (f.extend k l t).blocks[j]? =
      if j = k then (f.blocks[k]?).map (fun b => { b with
        code := b.code ++ l, term := t.or b.term }) else f.blocks[j]? := by
  unfold extend
  rw [List.getElem?_modify]
  by_cases h : k = j
  · subst h
    simp
  · simp [h, Ne.symm h]

end Llvm.Function

namespace Lower

/-! ## One instruction -/

/-- What names stand for so far. -/
def names (s : Symbols) (f : Frame) : Names where
  value v := f.values.lookup v
  place b := f.blocks.lookup b
  callee n := (s.defined.lookup n).or (s.externs.lookup n)
  params k := (s.functions[k]?).map (·.params)

/-- The frame with code put at the end of a block, and a value for a result, if there is one. -/
def Frame.extend (f : Frame) (k : Nat) (id : ValueId) (l : List Llvm.Instr)
    (t : Option Llvm.Term) (y : Option (Value × Ty)) : Frame :=
  { f with
    function := f.function.extend k l t
    values := (y.map (id, ·)).toList ++ f.values }

section Frame

variable (f : Frame) (k : Nat)

theorem Frame.widen_eq (y : Value × Ty) :
    f.widen k y = ({ f with function := f.function.extend k (widened f.function.regs y).1 none },
      (widened f.function.regs y).2) := by
  obtain ⟨v, ty⟩ := y
  cases ty with
  | i64 => simp [Frame.widen, widened, Llvm.Function.extend_nil]
  | i1 => simp [Frame.widen, widened, Frame.emit, Llvm.Function.emit_eq]

theorem Frame.narrow_eq (y : Value × Ty) :
    f.narrow k y = ({ f with function := f.function.extend k (narrowed f.function.regs y).1 none },
      (narrowed f.function.regs y).2) := by
  obtain ⟨v, ty⟩ := y
  cases ty with
  | i1 => simp [Frame.narrow, narrowed, Llvm.Function.extend_nil]
  | i64 => simp [Frame.narrow, narrowed, Frame.emit, Llvm.Function.emit_eq]

theorem Frame.widenAll_eq (ys : List (Value × Ty)) :
    f.widenAll k ys =
      ({ f with function := f.function.extend k (widenedAll f.function.regs ys).1 none },
        (widenedAll f.function.regs ys).2) := by
  induction ys generalizing f with
  | nil => simp [Frame.widenAll, widenedAll, Llvm.Function.extend_nil]
  | cons y ys ih =>
    simp only [Frame.widenAll, widenedAll, Frame.widen_eq, ih, Llvm.Function.extend_extend]
    simp [Llvm.Function.extend]

theorem Frame.define_eq (id : ValueId) (x : Value) (t : Ty) :
    f.define id x t = f.extend k id [] none (some (x, t)) := by
  simp [Frame.define, Frame.extend, Llvm.Function.extend_nil]

theorem Frame.compute_eq (id : ValueId) (ys : List (Value × Ty)) (rhs : List Value → Llvm.Rhs)
    (t : Ty) :
    f.compute k id ys rhs t =
      f.extend k id
        ((widenedAll f.function.regs ys).1 ++
          [⟨f.function.regs + (widenedAll f.function.regs ys).1.length,
            rhs (widenedAll f.function.regs ys).2⟩]) none
        (some (.reg (f.function.regs + (widenedAll f.function.regs ys).1.length), t)) := by
  unfold Frame.compute
  rw [Frame.widenAll_eq]
  simp [Frame.emit, Llvm.Function.emit_eq, Llvm.Function.extend_extend, Frame.define, Frame.extend]
  simp [Llvm.Function.extend]

theorem Frame.ended_eq (id : ValueId) (t : Llvm.Term) :
    f.ended k t = f.extend k id [] (some t) none := by
  simp [Frame.ended, Frame.extend, Llvm.Function.terminate_eq]

/-- Code is put at the end of a block, and then the block ends. -/
theorem Frame.ended_extend (id : ValueId) (l : List Llvm.Instr) (t : Llvm.Term) :
    Frame.ended { f with function := f.function.extend k l none } k t =
      f.extend k id l (some t) none := by
  simp [Frame.ended, Frame.extend, Llvm.Function.terminate_eq, Llvm.Function.extend_extend]

theorem Frame.narrow_ended (id : ValueId) (y : Value × Ty) (t : Value → Llvm.Term) :
    (f.narrow k y).1.ended k (t (f.narrow k y).2) =
      f.extend k id (narrowed f.function.regs y).1 (some (t (narrowed f.function.regs y).2))
        none := by
  rw [Frame.narrow_eq]
  exact f.ended_extend k id _ _

theorem Frame.widen_ended (id : ValueId) (y : Value × Ty) (t : Value → Llvm.Term) :
    (f.widen k y).1.ended k (t (f.widen k y).2) =
      f.extend k id (widened f.function.regs y).1 (some (t (widened f.function.regs y).2))
        none := by
  rw [Frame.widen_eq]
  exact f.ended_extend k id _ _

end Frame

/-! ## Callees -/

/-- The symbols after more was lowered: nothing is lost. -/
structure Symbols.Grows (s s' : Symbols) : Prop where
  defined : s'.defined = s.defined
  functions : s.functions <+: s'.functions
  externs : ∀ n k, s.externs.lookup n = some k → s'.externs.lookup n = some k

/-- The first functions are those of the program, and the other callees are declarations
after them. -/
structure Symbols.Sound (s : Symbols) (count : Nat) : Prop where
  count_le : count ≤ s.functions.length
  defined : ∀ n k, s.defined.lookup n = some k → k < count
  externs : ∀ n k, s.externs.lookup n = some k → s.defined.lookup n = none ∧ count ≤ k ∧
    ∃ f, s.functions[k]? = some f ∧ f.name = n ∧ f.blocks = []

theorem Symbols.Grows.refl (s : Symbols) : s.Grows s := ⟨rfl, List.prefix_rfl, fun _ _ h => h⟩

theorem Symbols.Grows.trans {s s' s'' : Symbols} (h : s.Grows s') (h' : s'.Grows s'') :
    s.Grows s'' :=
  ⟨h'.defined.trans h.defined, h.functions.trans h'.functions,
    fun n k hk => h'.externs n k (h.externs n k hk)⟩

theorem Symbols.Grows.getElem? {s s' : Symbols} (h : s.Grows s') {k : Nat} {f : Llvm.Function}
    (hf : s.functions[k]? = some f) : s'.functions[k]? = some f := by
  obtain ⟨more, hmore⟩ := h.functions
  rw [← hmore, List.getElem?_append_left (List.getElem?_eq_some_iff.mp hf).1]
  exact hf

/-- The symbols after bodies may have changed: no name is lost, and no head of a function. -/
structure Symbols.Keeps (s s' : Symbols) : Prop where
  defined : s'.defined = s.defined
  heads : ∀ (k : Nat) f, s.functions[k]? = some f →
    ∃ f', s'.functions[k]? = some f' ∧ f'.name = f.name ∧ f'.params = f.params
  externs : ∀ n k, s.externs.lookup n = some k → s'.externs.lookup n = some k

theorem Symbols.Grows.keeps {s s' : Symbols} (h : s.Grows s') : s.Keeps s' :=
  ⟨h.defined, fun _ f hf => ⟨f, h.getElem? hf, rfl, rfl⟩, h.externs⟩

theorem Symbols.Keeps.trans {s s' s'' : Symbols} (h : s.Keeps s') (h' : s'.Keeps s'') :
    s.Keeps s'' := by
  refine ⟨h'.defined.trans h.defined, ?_, fun n k hk => h'.externs n k (h.externs n k hk)⟩
  intro k f hf
  obtain ⟨f₁, hf₁, hname, hparams⟩ := h.heads k f hf
  obtain ⟨f₂, hf₂, hname', hparams'⟩ := h'.heads k f₁ hf₁
  exact ⟨f₂, hf₂, hname'.trans hname, hparams'.trans hparams⟩

/-- A name that is not known hides no other when it is declared. -/
theorem Symbols.grows_declare {s : Symbols} {name : String}
    (hnew : s.externs.lookup name = none) (args : Nat) : s.Grows (s.declare name args) := by
  refine ⟨rfl, List.prefix_append _ _, ?_⟩
  intro n j hj
  have hne : n ≠ name := by
    rintro rfl
    rw [hnew] at hj
    cases hj
  show List.lookup n (_ :: _) = _
  rw [lookup_cons_ne hne]
  exact hj

theorem Symbols.Sound.declare {s : Symbols} {count : Nat} {name : String} (hs : s.Sound count)
    (hnone : s.defined.lookup name = none) (hnew : s.externs.lookup name = none) (args : Nat) :
    (s.declare name args).Sound count := by
  refine ⟨?_, hs.defined, ?_⟩
  · have := hs.count_le
    simp only [Symbols.declare, List.length_append]
    omega
  · intro n j hj
    change List.lookup n (_ :: _) = _ at hj
    by_cases hne : n = name
    · subst hne
      have hj : s.functions.length = j := by simpa using hj
      subst hj
      exact ⟨hnone, hs.count_le, { name := n, params := args }, by simp [Symbols.declare], rfl, rfl⟩
    · rw [lookup_cons_ne hne] at hj
      obtain ⟨hd, hle, f, hf, hrest⟩ := hs.externs n j hj
      exact ⟨hd, hle, f, (Symbols.grows_declare hnew args).getElem? hf, hrest⟩

theorem Symbols.Sound.lt_length {s : Symbols} {count k : Nat} {name : String} (hs : s.Sound count)
    (h : (s.defined.lookup name).or (s.externs.lookup name) = some k) : k < s.functions.length := by
  rcases Option.or_eq_some_iff.mp h with hd | ⟨-, hx⟩
  · exact Nat.lt_of_lt_of_le (hs.defined name k hd) hs.count_le
  · obtain ⟨-, -, f, hf, -⟩ := hs.externs name k hx
    exact (List.getElem?_eq_some_iff.mp hf).1

theorem Symbols.map_params {s : Symbols} {k : Nat} (hk : k < s.functions.length) :
    (s.functions[k]?).map (·.params) = some (s.paramsAt k) := by
  unfold Symbols.paramsAt
  rw [List.getElem?_eq_getElem hk]
  rfl

theorem Symbols.callee_grows {s s' : Symbols} {k args : Nat} {name : String}
    (h : s.callee name args = .ok (s', k)) : s.Grows s' := by
  rcases Symbols.callee_cases h with ⟨rfl, -⟩ | ⟨hnone, -, rfl⟩
  · exact .refl s'
  · exact Symbols.grows_declare (Option.or_eq_none_iff.mp hnone).2 args

theorem Symbols.callee_spec {s s' : Symbols} {count k args : Nat} {name : String}
    (hs : s.Sound count) (h : s.callee name args = .ok (s', k)) :
    s'.Sound count ∧ (s'.defined.lookup name).or (s'.externs.lookup name) = some k ∧
      (s'.functions[k]?).map (·.params) = some args := by
  rcases Symbols.callee_cases h with ⟨rfl, hk, rfl⟩ | ⟨hnone, rfl, rfl⟩
  · exact ⟨hs, hk, Symbols.map_params (hs.lt_length hk)⟩
  · obtain ⟨hd, hx⟩ := Option.or_eq_none_iff.mp hnone
    exact ⟨hs.declare hd hx args, by simp [Symbols.declare, hd], by simp [Symbols.declare]⟩

/-! ## What an instruction adds -/

/-- An operation on two numbers has two operands. -/
def Paired (i : Instr) : Prop :=
  (i.op = .add ∨ i.op = .sub ∨ i.op = .mul ∨ i.op = .cmp) → i.values.length = 2

/-- What an instruction adds: some code, what ends the block, and a value. -/
def Adds (s : Symbols) (f f' : Frame) (k : Nat) (i : Instr) : Prop :=
  ∃ l term y, (names s f).Emits f.function.regs i l term y ∧ f' = f.extend k i.id l term y

theorem OnPair.rhs? {i : Instr} {rhs : Value → Value → Llvm.Rhs} {t : Ty} (h : OnPair i rhs t)
    (c : Names) (u v : Value) : c.rhs? i [u, v] = some (rhs u v, t) := by
  cases h with
  | add hop | sub hop | mul hop => simp only [Names.rhs?, hop]
  | cmp hop hc => simp only [Names.rhs?, hop, hc, Option.map_some]

section Adds

variable (s : Symbols) (f : Frame) (k : Nat) {i : Instr}

theorem pair_adds {rhs : Value → Value → Llvm.Rhs} {t : Ty} (hrhs : OnPair i rhs t)
    {x y : Value × Ty} (hys : i.values.mapM (fun v => f.values.lookup v) = some [x, y]) :
    Adds s f (f.compute k i.id [x, y] (onTwo rhs) t) k i :=
  ⟨_, _, _, .compute hys (hrhs.rhs? (names s f) _ _), f.compute_eq k i.id [x, y] (onTwo rhs) t⟩

theorem call_adds (hop : i.op = .call) {ys : List (Value × Ty)}
    (hys : i.values.mapM (fun v => f.values.lookup v) = some ys) {callee : Nat}
    (hcallee : (s.defined.lookup i.sym).or (s.externs.lookup i.sym) = some callee)
    (hparams : (s.functions[callee]?).map (·.params) = some ys.length) :
    Adds s f (f.compute k i.id ys (.call callee) .i64) k i := by
  have hrhs : (names s f).rhs? i (widenedAll f.function.regs ys).2 =
      some (.call callee (widenedAll f.function.regs ys).2, .i64) := by
    simp only [Names.rhs?, hop, names, hcallee, hparams, length_widenedAll, Option.bind_some,
      if_true]
  exact ⟨_, _, _, .compute hys hrhs, f.compute_eq k i.id ys (.call callee) .i64⟩

theorem br_adds (hop : i.op = .br) {b : BlockId} (hargs : i.args = [.block b])
    (hin : ∀ t ∈ i.targets, (f.blocks.lookup t).isSome) :
    Adds s f (f.ended k (.br (f.blocks.lookup b))) k i := by
  obtain ⟨place, hplace⟩ := Option.isSome_iff_exists.mp
    (hin b (by simp [Action.targets, hargs, Operand.block?]))
  refine ⟨[], _, none, .br hop hargs hplace, ?_⟩
  rw [f.ended_eq k i.id, hplace]

/-- A branch on a value narrows it first. -/
theorem brif_adds (hop : i.op = .brif) {v : ValueId} {yes no : BlockId}
    (hargs : i.args = [.value v, .block yes, .block no]) {y : Value × Ty}
    (hy : f.values.lookup v = some y) (hin : ∀ t ∈ i.targets, (f.blocks.lookup t).isSome) :
    Adds s f ((f.narrow k y).1.ended k
      (.condBr (f.narrow k y).2 (f.blocks.lookup yes) (f.blocks.lookup no))) k i := by
  have htargets := Action.targets_brif hargs
  obtain ⟨ky, hky⟩ := Option.isSome_iff_exists.mp (hin yes (by simp [htargets]))
  obtain ⟨kn, hkn⟩ := Option.isSome_iff_exists.mp (hin no (by simp [htargets]))
  refine ⟨_, _, none, .brif hop hargs hy hky hkn, ?_⟩
  rw [hky, hkn]
  exact f.narrow_ended k i.id y fun c => .condBr c (some ky) (some kn)

end Adds

theorem Does.grows {s s' : Symbols} {f f' : Frame} {k : Nat} {i : Instr} {ys : List (Value × Ty)}
    (h : Does s f k i ys s' f') : s.Grows s' := by
  cases h with
  | call _ hcallee => exact Symbols.callee_grows hcallee
  | _ => exact .refl s

theorem lowerInstr_spec {s s' : Symbols} {f f' : Frame} {k count : Nat} {i : Instr}
    (hs : s.Sound count) (hfits : i.Fits) (hpair : Paired i)
    (hin : ∀ t ∈ i.targets, (f.blocks.lookup t).isSome)
    (h : lowerInstr s f k i = .ok (s', f')) :
    s.Grows s' ∧ s'.Sound count ∧ Adds s' f f' k i := by
  obtain ⟨ys, hops, hdoes⟩ := lowerInstr_ok h
  have hlen := Frame.length_operands hops
  have hys := Frame.operands_eq_ok.mp hops
  refine ⟨hdoes.grows, ?_⟩
  cases hdoes with
  | const hop => exact ⟨hs, [], none, _, .const hop, f.define_eq k i.id _ _⟩
  | arg hop _ => exact ⟨hs, [], none, _, .arg hop, f.define_eq k i.id _ _⟩
  | @pair x y rest rhs t hrhs =>
    rw [hpair hrhs.op] at hlen
    obtain rfl : rest = [] := List.eq_nil_of_length_eq_zero (by simpa using hlen)
    exact ⟨hs, pair_adds s f k hrhs hys⟩
  | call hop hcallee =>
    obtain ⟨hsound, hk, hparams⟩ := Symbols.callee_spec hs hcallee
    exact ⟨hsound, call_adds s' f k hop hys hk hparams⟩
  | br hop hargs =>
    obtain ⟨b, hb⟩ := hfits.br_args hop
    rw [hb] at hargs
    cases hargs
    exact ⟨hs, br_adds s f k hop hb hin⟩
  | brif hop hargs =>
    obtain ⟨v, yes, no, hb⟩ := hfits.brif_args hop
    rw [hb] at hargs
    cases hargs
    have hvalues : i.values = [v] := by simp [Action.values, hb, Operand.value?]
    rw [hvalues] at hys
    obtain ⟨y, hy, heq⟩ := mapM_one hys
    cases heq
    exact ⟨hs, brif_adds s f k hop hb hy hin⟩
  | leave hop =>
    rcases hfits.ret_args hop with hargs | ⟨v, hargs⟩
    · exact ⟨hs, [], _, none, .leave hop hargs, f.ended_eq k i.id _⟩
    · simp [Action.values, hargs, Operand.value?] at hlen
  | @ret y rest hop =>
    rcases hfits.ret_args hop with hargs | ⟨v, hargs⟩
    · simp [Action.values, hargs] at hlen
    · have hvalues : i.values = [v] := by simp [Action.values, hargs, Operand.value?]
      rw [hvalues] at hys
      obtain ⟨y, hy, heq⟩ := mapM_one hys
      cases heq
      exact ⟨hs, _, _, none, .ret hop hargs hy, f.widen_ended k i.id y .ret⟩

/-! ## What stays when more is lowered -/

/-- The frame after instructions of these numbers were lowered: only values of these are
new, and in registers not used before. -/
structure Frame.Grows (f f' : Frame) (ids : List ValueId) : Prop where
  name : f'.function.name = f.function.name
  params : f'.function.params = f.function.params
  blocks : f'.blocks = f.blocks
  regs : f.function.regs ≤ f'.function.regs
  values : ∃ new, f'.values = new ++ f.values ∧ (new.map (·.1)).reverse.Sublist ids ∧
    ∀ e ∈ new, ∀ m, e.2.1 = .reg m → f.function.regs ≤ m ∧ m < f'.function.regs

theorem Frame.Grows.refl (f : Frame) : f.Grows f [] :=
  ⟨rfl, rfl, rfl, Nat.le_refl _, [], rfl, List.Sublist.refl _, by simp⟩

theorem Frame.Grows.trans {f f' f'' : Frame} {ids ids' : List ValueId} (h : f.Grows f' ids)
    (h' : f'.Grows f'' ids') : f.Grows f'' (ids ++ ids') := by
  obtain ⟨new, hnew, hids, hregs⟩ := h.values
  obtain ⟨new', hnew', hids', hregs'⟩ := h'.values
  refine ⟨h'.name.trans h.name, h'.params.trans h.params, h'.blocks.trans h.blocks,
    Nat.le_trans h.regs h'.regs, new' ++ new, ?_, ?_, ?_⟩
  · rw [hnew', hnew, List.append_assoc]
  · rw [List.map_append, List.reverse_append]
    exact hids.append hids'
  · intro e he m hm
    have h1 := h.regs
    have h2 := h'.regs
    rcases List.mem_append.mp he with he | he
    · have := hregs' e he m hm
      omega
    · have := hregs e he m hm
      omega

/-- What an instruction that ends a block becomes, and what any other becomes. -/
theorem Names.Emits.kind {c : Names} {r : Nat} {i : Instr} {l : List Llvm.Instr}
    {term : Option Llvm.Term} {y : Option (Value × Ty)} (h : c.Emits r i l term y) :
    (i.isTerminator = true ∧ (∃ t, term = some t) ∧ y = none) ∨
      (i.isTerminator = false ∧ term = none ∧ ∃ z, y = some z) := by
  unfold Action.isTerminator Op.isTerminator
  cases h with
  | const hop => exact .inr ⟨by simp [hop, Op.ending], rfl, _, rfl⟩
  | arg hop => exact .inr ⟨by simp [hop, Op.ending], rfl, _, rfl⟩
  | compute hys hrhs =>
    refine .inr ⟨?_, rfl, _, rfl⟩
    unfold Names.rhs? at hrhs
    cases hop : i.op <;> simp [hop, Op.ending] at hrhs ⊢
  | br hop => exact .inl ⟨by simp [hop, Op.ending], ⟨_, rfl⟩, rfl⟩
  | brif hop => exact .inl ⟨by simp [hop, Op.ending], ⟨_, rfl⟩, rfl⟩
  | leave hop => exact .inl ⟨by simp [hop, Op.ending], ⟨_, rfl⟩, rfl⟩
  | ret hop => exact .inl ⟨by simp [hop, Op.ending], ⟨_, rfl⟩, rfl⟩

/-- A result is in the last of the registers of an instruction. -/
theorem Names.Emits.reg {c : Names} {r m : Nat} {i : Instr} {l : List Llvm.Instr}
    {term : Option Llvm.Term} {ty : Ty} (h : c.Emits r i l term (some (.reg m, ty))) :
    r ≤ m ∧ m + 1 = r + l.length := by
  cases h with
  | compute hys hrhs =>
    simp only [List.length_append, List.length_singleton]
    omega

theorem Adds.grows {s : Symbols} {f f' : Frame} {k : Nat} {i : Instr} (h : Adds s f f' k i) :
    f.Grows f' [i.id] := by
  obtain ⟨l, term, y, hem, rfl⟩ := h
  refine ⟨rfl, rfl, rfl, Nat.le_add_right _ _, (y.map (i.id, ·)).toList, rfl, ?_, ?_⟩
  · cases y <;> simp
  · intro e he m hm
    cases y with
    | none => cases he
    | some z =>
      obtain ⟨v, ty⟩ := z
      have he : e = (i.id, v, ty) := by simpa using he
      subst he
      have hm : v = .reg m := hm
      subst hm
      obtain ⟨hr, hl⟩ := hem.reg
      refine ⟨hr, ?_⟩
      show m < f.function.regs + l.length
      omega

/-- All registers of values are in use. -/
def Frame.Low (f : Frame) : Prop := ∀ e ∈ f.values, ∀ m, e.2.1 = .reg m → m < f.function.regs

theorem Frame.Grows.low {f f' : Frame} {ids : List ValueId} (h : f.Grows f' ids) (hf : f.Low) :
    f'.Low := by
  obtain ⟨new, hnew, -, hregs⟩ := h.values
  intro e he m hm
  rw [hnew] at he
  rcases List.mem_append.mp he with he | he
  · exact (hregs e he m hm).2
  · exact Nat.lt_of_lt_of_le (hf e he m hm) h.regs

/-- The names stand for what they stand for in a frame in which all is lowered. -/
structure Finishes (c : Names) (fin : Frame) : Prop where
  value : ∀ v, c.value v = fin.values.lookup v
  place : ∀ b, c.place b = fin.blocks.lookup b
  nodup : (fin.values.map (·.1)).Nodup

/-- All callees known so far are known by these names. -/
structure Knows (c : Names) (s : Symbols) : Prop where
  callee : ∀ n k, (s.defined.lookup n).or (s.externs.lookup n) = some k → c.callee n = some k
  params : ∀ k n, (s.functions[k]?).map (·.params) = some n → c.params k = some n

theorem Knows.of_keeps {c : Names} {s s' : Symbols} (hg : s.Keeps s') (h : Knows c s') :
    Knows c s := by
  constructor
  · intro n k hk
    apply h.callee
    rw [hg.defined]
    cases hd : s.defined.lookup n with
    | some j => rwa [hd] at hk
    | none =>
      rw [hd] at hk
      exact hg.externs n k hk
  · intro k n hn
    obtain ⟨f, hf, rfl⟩ := Option.map_eq_some_iff.mp hn
    obtain ⟨f', hf', -, hparams⟩ := hg.heads k f hf
    apply h.params
    rw [hf', ← hparams]
    rfl

theorem Knows.rhs? {c : Names} {s : Symbols} {f : Frame} (h : Knows c s) {i : Instr}
    {vs : List Value} {rhs : Llvm.Rhs} {ty : Ty} (hr : (names s f).rhs? i vs = some (rhs, ty)) :
    c.rhs? i vs = some (rhs, ty) := by
  unfold Names.rhs? at hr ⊢
  -- only a call looks at the callees
  split at hr
  · exact hr
  · exact hr
  · exact hr
  · exact hr
  · obtain ⟨k, hk, hr⟩ := Option.bind_eq_some_iff.mp hr
    split at hr
    · rename_i hparams
      rw [h.callee _ k hk, Option.bind_some, if_pos (h.params k _ hparams)]
      exact hr
    · cases hr
  · cases hr

section Finishes

variable {c : Names} {f fin : Frame} {s : Symbols} {ids : List ValueId}

/-- A value keeps its name. -/
theorem Finishes.value_of_lookup (hc : Finishes c fin) (hg : f.Grows fin ids) {v : ValueId}
    {y : Value × Ty} (hy : f.values.lookup v = some y) : c.value v = some y := by
  obtain ⟨new, hnew, -, -⟩ := hg.values
  have hn := hc.nodup
  rw [hc.value, hnew]
  rw [hnew, List.map_append, List.nodup_append] at hn
  have hmem : v ∈ f.values.map (·.1) := List.mem_map_of_mem (mem_of_lookup hy)
  have hnone : new.lookup v = none := by
    rw [List.lookup_eq_none_iff]
    intro e he
    have := hn.2.2 e.1 (List.mem_map_of_mem he) v hmem
    simpa using this.symm
  rw [List.lookup_append, hnone, hy]
  rfl

theorem Finishes.emits (hc : Finishes c fin) (hg : f.Grows fin ids) (hk : Knows c s) {r : Nat}
    {i : Instr} {l : List Llvm.Instr} {term : Option Llvm.Term} {y : Option (Value × Ty)}
    (h : (names s f).Emits r i l term y) : c.Emits r i l term y := by
  have hplace : ∀ b k, (names s f).place b = some k → c.place b = some k := by
    intro b k hb
    rw [hc.place, hg.blocks]
    exact hb
  cases h with
  | const hop => exact .const hop
  | arg hop => exact .arg hop
  | compute hys hrhs =>
    refine .compute ?_ ?_
    · rw [mapM_eq_some] at hys ⊢
      exact hys.imp fun v z hz => hc.value_of_lookup hg hz
    · exact hk.rhs? hrhs
  | br hop hargs hb => exact .br hop hargs (hplace _ _ hb)
  | brif hop hargs hv hyes hno =>
    exact .brif hop hargs (hc.value_of_lookup hg hv) (hplace _ _ hyes) (hplace _ _ hno)
  | leave hop hargs => exact .leave hop hargs
  | ret hop hargs hv => exact .ret hop hargs (hc.value_of_lookup hg hv)

/-- No other value is in a register of an instruction. -/
theorem Finishes.clear (hc : Finishes c fin) (hlow : f.Low) {k : Nat} {id : ValueId}
    {l : List Llvm.Instr} {term : Option Llvm.Term} {y : Option (Value × Ty)}
    (hg : (f.extend k id l term y).Grows fin ids) {v : ValueId} {z : Value × Ty}
    (hz : c.value v = some z) (hv : y = none ∨ v ≠ id) :
    Clear f.function.regs (f.function.regs + l.length) z.1 := by
  obtain ⟨new, hnew, -, hregs⟩ := hg.values
  rw [hc.value] at hz
  have hmem := mem_of_lookup hz
  rw [hnew] at hmem
  intro m hm
  -- the value was named after the instruction, by it, or before it
  rcases List.mem_append.mp hmem with hlater | hmem
  · right
    exact (hregs _ hlater m hm).1
  · rcases List.mem_append.mp hmem with hown | hearlier
    · rcases hv with rfl | hv
      · cases hown
      · cases y with
        | none => cases hown
        | some w =>
          have : (v, z) = (id, w) := by simpa using hown
          exact absurd (congrArg Prod.fst this) hv
    · left
      exact hlow _ hearlier m hm

end Finishes

/-! ## Blocks -/

/-- The code can be lowered: its operands fit, and its targets have places. -/
def Ready (f : Frame) (code : List Instr) : Prop :=
  ∀ i ∈ code, i.Fits ∧ Paired i ∧ ∀ t ∈ i.targets, (f.blocks.lookup t).isSome

/-- The code became what it should, once all is lowered. -/
def Becomes (f f' : Frame) (s' : Symbols) (code : List Instr) (l : List Llvm.Instr)
    (term : Option Llvm.Term) : Prop :=
  ∀ c fin ids, Finishes c fin → f'.Grows fin ids → Knows c s' → f.Low → c.Lowers code l term

theorem Becomes.later {f f₁ f' : Frame} {s₁ s' : Symbols} {ids : List ValueId}
    {code : List Instr} {l : List Llvm.Instr} {term : Option Llvm.Term}
    (h : Becomes f f₁ s₁ code l term) (hf : f₁.Grows f' ids) (hs : s₁.Grows s') :
    Becomes f f' s' code l term :=
  fun c fin _ hc hg hk hlow => h c fin _ hc (hf.trans hg) (hk.of_keeps hs.keeps) hlow

theorem Becomes.earlier {f f₁ f' : Frame} {s' : Symbols} {ids : List ValueId}
    {code : List Instr} {l : List Llvm.Instr} {term : Option Llvm.Term}
    (h : Becomes f₁ f' s' code l term) (hf : f.Grows f₁ ids) : Becomes f f' s' code l term :=
  fun c fin ids hc hg hk hlow => h c fin ids hc hg hk (hf.low hlow)

theorem lowerCode_cons {k : Nat} {name : String} {i : Instr} {rest : List Instr}
    {s : Symbols} {f : Frame} {r : Symbols × Frame}
    (h : lowerCode k name (i :: rest) (s, f) = .ok r) :
    ∃ s₁ f₁, lowerInstr s f k i = .ok (s₁, f₁) ∧ lowerCode k name rest (s₁, f₁) = .ok r := by
  unfold lowerCode at h
  split at h
  · cases h
  · cases h
  · rename_i r₁ hr₁
    exact ⟨r₁.1, r₁.2, hr₁, h⟩

/-- The code of a block, which ends in its only terminator. -/
theorem lowerCode_spec {k count : Nat} {name : String} {last : Instr}
    (hlast : last.isTerminator = true) (body : List Instr)
    (hbody : ∀ i ∈ body, i.isTerminator = false) {s s' : Symbols} {f f' : Frame}
    (hs : s.Sound count) (hready : Ready f (body ++ [last]))
    (h : lowerCode k name (body ++ [last]) (s, f) = .ok (s', f')) :
    s.Grows s' ∧ s'.Sound count ∧ f.Grows f' ((body ++ [last]).map (·.id)) ∧
      ∃ l term, f'.function = f.function.extend k l term ∧
        Becomes f f' s' (body ++ [last]) l term := by
  -- on the instructions before the terminator; all add to the end of the same block
  induction body generalizing s f with
  | nil =>
    obtain ⟨s₁, f₁, hone, hrest⟩ := lowerCode_cons h
    obtain ⟨hfits, hpair, hin⟩ := hready last (by simp)
    cases hrest
    obtain ⟨hgrows, hsound, hadds⟩ := lowerInstr_spec hs hfits hpair hin hone
    refine ⟨hgrows, hsound, hadds.grows, ?_⟩
    have hfg := hadds.grows
    obtain ⟨l, term, y, hem, rfl⟩ := hadds
    refine ⟨l, term, rfl, ?_⟩
    intro c fin ids hc hg hk hlow
    rcases hem.kind with ⟨-, ⟨t, rfl⟩, rfl⟩ | ⟨hno, -, -⟩
    · refine .last (hc.emits (hfg.trans hg) hk hem) ?_
      exact fun v z hz => hc.clear hlow hg hz (.inl rfl)
    · rw [hlast] at hno
      cases hno
  | cons i body ih =>
    obtain ⟨s₁, f₁, hone, hrest⟩ := lowerCode_cons h
    obtain ⟨hfits, hpair, hin⟩ := hready i (by simp)
    obtain ⟨hgrows, hsound, hadds⟩ := lowerInstr_spec hs hfits hpair hin hone
    have hfg := hadds.grows
    have hready₁ : Ready f₁ (body ++ [last]) := by
      intro j hj
      rw [hfg.blocks]
      exact hready j (List.mem_cons_of_mem i hj)
    obtain ⟨hgrows', hsound', hfg', l', term', hfun, hbecomes⟩ :=
      ih (fun j hj => hbody j (List.mem_cons_of_mem i hj)) hsound hready₁ hrest
    refine ⟨hgrows.trans hgrows', hsound', hfg.trans hfg', ?_⟩
    obtain ⟨l, term, y, hem, rfl⟩ := hadds
    rcases hem.kind with ⟨hyes, -, -⟩ | ⟨-, rfl, z, rfl⟩
    · rw [hbody i List.mem_cons_self] at hyes
      cases hyes
    · refine ⟨l ++ l', term', ?_, ?_⟩
      · rw [hfun]
        show (f.function.extend k l none).extend k l' term' = _
        rw [Llvm.Function.extend_extend, Option.or_none]
      · intro c fin ids hc hg hk hlow
        have hall := hfg'.trans hg
        have hk₁ := hk.of_keeps hgrows'.keeps
        refine .step (hc.emits (hfg.trans hall) hk₁ hem) ?_ ?_ ?_
        · exact hc.value_of_lookup hall (by simp [Frame.extend])
        · exact fun v w hw hne => hc.clear hlow hall hw (.inr hne)
        · exact hbecomes c fin ids hc hg hk (hfg.low hlow)

theorem lowerBlocks_cons {b : Option Block} {rest : List (Option Block)} {s : Symbols}
    {f : Frame} {r : Symbols × Frame} (h : lowerBlocks (b :: rest) (s, f) = .ok r) :
    ∃ block k s₁ f₁, b = some block ∧ f.blocks.lookup block.id = some k ∧
      lowerCode k block.name block.code (s, f) = .ok (s₁, f₁) ∧
      lowerBlocks rest (s₁, f₁) = .ok r := by
  cases b with
  | none => cases h
  | some block =>
    unfold lowerBlocks at h
    split at h
    · cases h
    · rename_i k hk
      split at h
      · cases h
      · rename_i r₁ hr₁
        exact ⟨block, k, r₁.1, r₁.2, rfl, hk, hr₁, h⟩

/-- Blocks that are still to be lowered: each can be, and has an empty place. -/
structure Waiting (f : Frame) (bs : List Block) : Prop where
  nodup : (bs.map (·.id)).Nodup
  ends : ∀ b ∈ bs, b.Ends
  ready : ∀ b ∈ bs, Ready f b.code
  apart : ∀ x y k, f.blocks.lookup x = some k → f.blocks.lookup y = some k → x = y
  empty : ∀ b ∈ bs, ∀ k, f.blocks.lookup b.id = some k →
    ∃ name, f.function.blocks[k]? = some { name := name }

theorem lowerBlocks_spec {count : Nat} (bs : List Block) {s s' : Symbols} {f f' : Frame}
    (hs : s.Sound count) (hw : Waiting f bs)
    (h : lowerBlocks (bs.map some) (s, f) = .ok (s', f')) :
    s.Grows s' ∧ s'.Sound count ∧ f.Grows f' ((bs.flatMap (·.code)).map (·.id)) ∧
      (∀ j, (∀ b ∈ bs, f.blocks.lookup b.id ≠ some j) →
        f'.function.blocks[j]? = f.function.blocks[j]?) ∧
      ∀ b ∈ bs, ∃ k b', f.blocks.lookup b.id = some k ∧ f'.function.blocks[k]? = some b' ∧
        Becomes f f' s' b.code b'.code b'.term := by
  induction bs generalizing s f with
  | nil =>
    cases h
    exact ⟨.refl _, hs, .refl _, fun _ _ => rfl, by simp⟩
  | cons b bs ih =>
    obtain ⟨block, k, s₁, f₁, heq, hk, hcode, hrest⟩ := lowerBlocks_cons h
    cases heq
    obtain ⟨body, last, hc, hlast, hbody⟩ := hw.ends b List.mem_cons_self
    have hready := hw.ready b List.mem_cons_self
    rw [hc] at hcode hready
    obtain ⟨hgrows, hsound, hfg, l, term, hfun, hbecomes⟩ :=
      lowerCode_spec hlast body hbody hs hready hcode
    rw [← hc] at hfg hbecomes
    obtain ⟨hid, hnodup⟩ := List.nodup_cons.mp hw.nodup
    -- the places of the other blocks are not touched
    have hother : ∀ j, j ≠ k → f₁.function.blocks[j]? = f.function.blocks[j]? := by
      intro j hj
      rw [hfun, Llvm.Function.extend_getElem?, if_neg hj]
    have hne : ∀ b' ∈ bs, f.blocks.lookup b'.id ≠ some k := by
      intro b' hb' hk'
      exact hid (List.mem_map.mpr ⟨b', hb', hw.apart _ _ k hk' hk⟩)
    have hw₁ : Waiting f₁ bs := by
      refine ⟨hnodup, fun b' hb' => hw.ends b' (List.mem_cons_of_mem b hb'), ?_, ?_, ?_⟩
      · intro b' hb' i hi
        rw [hfg.blocks]
        exact hw.ready b' (List.mem_cons_of_mem b hb') i hi
      · rw [hfg.blocks]
        exact hw.apart
      · intro b' hb' j hj
        rw [hfg.blocks] at hj
        have hjk : j ≠ k := fun he => hne b' hb' (he ▸ hj)
        rw [hother j hjk]
        exact hw.empty b' (List.mem_cons_of_mem b hb') j hj
    obtain ⟨hgrows', hsound', hfg', hkept, hall⟩ := ih hsound hw₁ hrest
    rw [hfg.blocks] at hkept hall
    refine ⟨hgrows.trans hgrows', hsound', ?_, ?_, ?_⟩
    · rw [List.flatMap_cons, List.map_append]
      exact hfg.trans hfg'
    · intro j hj
      have hjk : j ≠ k := fun he => hj b List.mem_cons_self (he ▸ hk)
      rw [hkept j fun b' hb' => hj b' (List.mem_cons_of_mem b hb'), hother j hjk]
    · intro b' hb'
      rcases List.mem_cons.mp hb' with rfl | hb'
      · obtain ⟨name, hempty⟩ := hw.empty b' List.mem_cons_self k hk
        refine ⟨k, { name := name, code := l, term := term }, hk, ?_, hbecomes.later hfg' hgrows'⟩
        rw [hkept k hne, hfun, Llvm.Function.extend_getElem?, if_pos rfl, hempty]
        simp
      · obtain ⟨j, b'', hj, hb'', hbec⟩ := hall b' hb'
        exact ⟨j, b'', hj, hb'', hbec.earlier hfg⟩

end Lower

end FlowGraph
