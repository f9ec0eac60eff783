import FlowGraph.Proofs.LoweredProgram

/-!
Lowering instruction by instruction. Each instruction puts code at the end of
the block of its own, and only one that ends its block sets what ends it. The
blocks of a graph are lowered in a row, so lowering a graph is a row of such
steps. It fails at the first of them that is refused, or where a block is lost.
-/

namespace FlowGraph

open Llvm (Value Ty)

/-- The places that a terminator leads to, in order. -/
def Llvm.Term.targets : Llvm.Term → List (Option Nat)
  | .br t => [t]
  | .condBr _ yes no => [yes, no]
  | .ret _ => []

namespace Lower

/-! ## One instruction -/

/-- What ends a block after an instruction: nothing new, or for a terminator something that
leads to the places of its blocks. -/
def Ending (f : Frame) (i : Instr) : Option Llvm.Term → Prop
  | none => i.isTerminator = false
  | some t => i.isTerminator = true ∧ t.targets = i.targets.map (fun b => f.blocks.lookup b)

/-- An instruction puts code at the end of one block. A terminator ends the block, and any other
has a value. -/
def Writes (f f' : Frame) (k : Nat) (i : Instr) : Prop :=
  ∃ l t y, f' = f.extend k i.id l t y ∧ y.isSome = !i.isTerminator ∧ (i.Fits → Ending f i t)

section Instr

variable {s s' : Symbols} {f f' : Frame} {k : Nat} {i : Instr} {l : List Llvm.Instr}

theorem Writes.value (hi : i.isTerminator = false) {y : Value × Ty} :
    Writes f (f.extend k i.id l none (some y)) k i :=
  ⟨l, none, some y, rfl, by simp [hi], fun _ => hi⟩

theorem Writes.ending (hi : i.isTerminator = true) {t : Llvm.Term}
    (ht : i.Fits → t.targets = i.targets.map (fun b => f.blocks.lookup b)) :
    Writes f (f.extend k i.id l (some t) none) k i :=
  ⟨l, some t, none, rfl, by simp [hi], fun hfits => ⟨hi, ht hfits⟩⟩

theorem OnPair.isTerminator {rhs : Value → Value → Llvm.Rhs} {t : Ty} (h : OnPair i rhs t) :
    i.isTerminator = false := by
  rcases h.op with hop | hop | hop | hop
  all_goals exact congrArg Op.isTerminator hop

/-- A branch leads to the place of its block. -/
theorem targets_br (hop : i.op = .br) {t : Operand} {rest : List Operand}
    (hargs : i.args = t :: rest) (hfits : i.Fits) :
    [f.blocks.lookup t.blockOrZero] = i.targets.map (fun b => f.blocks.lookup b) := by
  obtain ⟨b, hb⟩ := hfits.br_args hop
  have htargets : i.targets = [b] := by simp [Action.targets, hb, Operand.block?]
  rw [hargs] at hb
  cases hb
  rw [htargets]
  rfl

/-- A branch on a value leads to the places of its two blocks. -/
theorem targets_brif (hop : i.op = .brif) {v yes no : Operand} {rest : List Operand}
    (hargs : i.args = v :: yes :: no :: rest) (hfits : i.Fits) :
    [f.blocks.lookup yes.blockOrZero, f.blocks.lookup no.blockOrZero] =
      i.targets.map (fun b => f.blocks.lookup b) := by
  obtain ⟨u, b, b', hb⟩ := hfits.brif_args hop
  have htargets := Action.targets_brif hb
  rw [hargs] at hb
  cases hb
  rw [htargets]
  rfl

theorem lowerInstr_writes (h : lowerInstr s f k i = .ok (s', f')) :
    s.Grows s' ∧ Writes f f' k i := by
  obtain ⟨ys, -, hdoes⟩ := lowerInstr_ok h
  refine ⟨hdoes.grows, ?_⟩
  cases hdoes with
  | const hop =>
    rw [f.define_eq k]
    exact .value (congrArg Op.isTerminator hop)
  | arg hop _ =>
    rw [f.define_eq k]
    exact .value (congrArg Op.isTerminator hop)
  | pair hrhs =>
    rw [f.compute_eq]
    exact .value hrhs.isTerminator
  | call hop _ =>
    rw [f.compute_eq]
    exact .value (congrArg Op.isTerminator hop)
  | br hop hargs =>
    rw [f.ended_eq k i.id]
    exact .ending (congrArg Op.isTerminator hop) (targets_br hop hargs)
  | @brif y _ _ yes no _ hop hargs =>
    rw [f.narrow_ended k i.id y fun c =>
      .condBr c (f.blocks.lookup yes.blockOrZero) (f.blocks.lookup no.blockOrZero)]
    exact .ending (congrArg Op.isTerminator hop) (targets_brif hop hargs)
  | leave hop =>
    rw [f.ended_eq k i.id]
    exact .ending (congrArg Op.isTerminator hop) fun hfits => by rw [hfits.targets_ret hop]; rfl
  | ret hop =>
    rw [f.widen_ended k i.id _ .ret]
    exact .ending (congrArg Op.isTerminator hop) fun hfits => by rw [hfits.targets_ret hop]; rfl

end Instr

/-! ## Instructions in a row -/

/-- One step of lowering: an instruction, into the block at a place. -/
def lowerStep (r : Symbols × Frame) (w : Nat × Instr) : Except Stop (Symbols × Frame) :=
  lowerInstr r.1 r.2 w.1 w.2

/-- The instructions of blocks in a row, each with the place of its block. -/
def workOf (places : List (BlockId × Nat)) (bs : List Block) : List (Nat × Instr) :=
  bs.flatMap fun b => b.code.map ((places.lookup b.id).getD 0, ·)

/-- What instructions in a row leave. Blocks that none of them is in are as they were. -/
structure Wrote (ws : List (Nat × Instr)) (r r' : Symbols × Frame) : Prop where
  grows : r.1.Grows r'.1
  name : r'.2.function.name = r.2.function.name
  params : r'.2.function.params = r.2.function.params
  blocks : r'.2.blocks = r.2.blocks
  names : r'.2.function.blocks.map (·.name) = r.2.function.blocks.map (·.name)
  other : ∀ j, (∀ w ∈ ws, w.1 ≠ j) → r'.2.function.blocks[j]? = r.2.function.blocks[j]?

theorem Writes.wrote {s s' : Symbols} {f f' : Frame} {k : Nat} {i : Instr}
    (hs : s.Grows s') (h : Writes f f' k i) : Wrote [(k, i)] (s, f) (s', f') := by
  obtain ⟨l, t, y, rfl, -⟩ := h
  refine ⟨hs, rfl, rfl, rfl, ?_, ?_⟩
  · show (f.function.blocks.modify k _).map _ = _
    apply List.ext_getElem?
    intro j
    rw [List.getElem?_map, List.getElem?_map, List.getElem?_modify]
    cases f.function.blocks[j]? with
    | none => rfl
    | some b => by_cases hj : k = j <;> simp [hj]
  · intro j hj
    have hne : j ≠ k := fun he => hj _ List.mem_cons_self he.symm
    show (f.function.extend k l t).blocks[j]? = _
    rw [Llvm.Function.extend_getElem?, if_neg hne]

theorem Wrote.refl (r : Symbols × Frame) : Wrote [] r r :=
  ⟨.refl _, rfl, rfl, rfl, rfl, fun _ _ => rfl⟩

theorem Wrote.trans {ws ws' : List (Nat × Instr)} {r r' r'' : Symbols × Frame}
    (h : Wrote ws r r') (h' : Wrote ws' r' r'') : Wrote (ws ++ ws') r r'' := by
  refine ⟨h.grows.trans h'.grows, h'.name.trans h.name, h'.params.trans h.params,
    h'.blocks.trans h.blocks, h'.names.trans h.names, ?_⟩
  intro j hj
  rw [h'.other j fun w hw => hj w (List.mem_append_right ws hw),
    h.other j fun w hw => hj w (List.mem_append_left ws' hw)]

/-- Instructions lowered in a row leave what each of them leaves. -/
theorem wrote_of_steps {ws : List (Nat × Instr)} {r r' : Symbols × Frame}
    (h : ws.foldlM lowerStep r = .ok r') : Wrote ws r r' := by
  induction ws generalizing r with
  | nil =>
    cases h
    exact .refl _
  | cons w ws ih =>
    obtain ⟨r₁, hone, hrest⟩ := bind_eq_ok.mp h
    obtain ⟨hs, hwrites⟩ := lowerInstr_writes hone
    exact (hwrites.wrote hs).trans (ih hrest)

/-- While no terminator of a block is lowered, what ends the block stays. -/
theorem term_of_steps {ws : List (Nat × Instr)} {r r' : Symbols × Frame}
    (hfits : ∀ w ∈ ws, w.2.Fits) (h : ws.foldlM lowerStep r = .ok r') {j : Nat}
    (hno : ∀ w ∈ ws, w.1 = j → w.2.isTerminator = false) :
    (r'.2.function.blocks[j]?).map (·.term) = (r.2.function.blocks[j]?).map (·.term) := by
  induction ws generalizing r with
  | nil =>
    cases h
    rfl
  | cons w ws ih =>
    obtain ⟨r₁, hone, hrest⟩ := bind_eq_ok.mp h
    rw [List.forall_mem_cons] at hfits hno
    rw [ih hfits.2 hrest hno.2]
    obtain ⟨-, l, t, y, heq, -, hending⟩ := lowerInstr_writes hone
    rw [heq]
    show ((r.2.function.extend w.1 l t).blocks[j]?).map _ = _
    rw [Llvm.Function.extend_getElem?]
    split
    · rename_i hj
      subst hj
      -- the instruction is in the block, but it is no terminator
      have hnone : t = none := by
        cases t with
        | none => rfl
        | some t =>
          have := (hending hfits.1).1
          rw [hno.1 rfl] at this
          cases this
      subst hnone
      cases r.2.function.blocks[w.1]? <;> simp
    · rfl

/-- A terminator ends its block, which then leads to the places of its blocks. -/
theorem term_of_step {r r' : Symbols × Frame} {k : Nat} {i : Instr} (hfits : i.Fits)
    (hi : i.isTerminator = true) (h : lowerStep r (k, i) = .ok r') {b : Llvm.Block}
    (hb : r.2.function.blocks[k]? = some b) :
    ∃ b' t, r'.2.function.blocks[k]? = some b' ∧ b'.term = some t ∧
      t.targets = i.targets.map (fun b => r.2.blocks.lookup b) := by
  obtain ⟨-, l, t, y, heq, -, hending⟩ := lowerInstr_writes h
  have hending := hending hfits
  cases t with
  | none =>
    have hno : i.isTerminator = false := hending
    rw [hi] at hno
    cases hno
  | some t =>
    refine ⟨{ b with code := b.code ++ l, term := some t }, t, ?_, rfl, hending.2⟩
    rw [heq]
    show (r.2.function.extend k l (some t)).blocks[k]? = _
    rw [Llvm.Function.extend_getElem?, if_pos rfl, hb]
    simp

/-! ## Blocks in a row -/

theorem lowerCode_eq_ok {k : Nat} {name : String} {code : List Instr} {r r' : Symbols × Frame} :
    lowerCode k name code r = .ok r' ↔ (code.map (k, ·)).foldlM lowerStep r = .ok r' := by
  induction code generalizing r with
  | nil =>
    rw [lowerCode]
    simp [pure, Except.pure]
  | cons i code ih =>
    rw [lowerCode, List.map_cons, List.foldlM_cons, bind_eq_ok]
    show _ ↔ ∃ r₁, lowerInstr r.1 r.2 k i = .ok r₁ ∧ _
    cases hone : lowerInstr r.1 r.2 k i with
    | error e => cases e <;> simp
    | ok r₁ => simp [ih]

theorem workOf_cons {places : List (BlockId × Nat)} {b : Block} {k : Nat}
    (hk : places.lookup b.id = some k) (bs : List Block) :
    workOf places (b :: bs) = b.code.map (k, ·) ++ workOf places bs := by
  simp [workOf, hk]

/-- Lowering blocks is lowering their instructions in a row. -/
theorem lowerBlocks_eq_ok {bs : List Block} {s : Symbols} {f : Frame} {r : Symbols × Frame}
    (hplaced : ∀ b ∈ bs, (f.blocks.lookup b.id).isSome) :
    lowerBlocks (bs.map some) (s, f) = .ok r ↔
      (workOf f.blocks bs).foldlM lowerStep (s, f) = .ok r := by
  induction bs generalizing s f with
  | nil =>
    rw [List.map_nil, lowerBlocks]
    simp [workOf, pure, Except.pure]
  | cons b bs ih =>
    rw [List.forall_mem_cons] at hplaced
    obtain ⟨k, hk⟩ := Option.isSome_iff_exists.mp hplaced.1
    have hcodes : ∀ r, (b.code.map (k, ·)).foldlM lowerStep (s, f) = .ok r ↔
        lowerCode k b.name b.code (s, f) = .ok r := fun _ => lowerCode_eq_ok.symm
    rw [workOf_cons hk, List.foldlM_append, bind_eq_ok, List.map_cons, lowerBlocks, hk]
    simp only [hcodes]
    cases hcode : lowerCode k b.name b.code (s, f) with
    | error e => simp
    | ok r₁ =>
      -- the places do not change on the way
      have hblocks : r₁.2.blocks = f.blocks := (wrote_of_steps (lowerCode_eq_ok.mp hcode)).blocks
      simp only [Except.ok.injEq, exists_eq_left']
      rw [← hblocks]
      exact ih (by rw [hblocks]; exact hplaced.2)

/-- However blocks are lowered, they are lowered step by step. -/
theorem wrote_of_lowerBlocks {bs : List (Option Block)} {s s' : Symbols} {f f' : Frame}
    (h : lowerBlocks bs (s, f) = .ok (s', f')) : ∃ ws, Wrote ws (s, f) (s', f') := by
  induction bs generalizing s f with
  | nil =>
    cases h
    exact ⟨[], .refl _⟩
  | cons b bs ih =>
    obtain ⟨block, k, s₁, f₁, -, -, hcode, hrest⟩ := lowerBlocks_cons h
    obtain ⟨ws, hlater⟩ := ih hrest
    exact ⟨_, (wrote_of_steps (lowerCode_eq_ok.mp hcode)).trans hlater⟩

/-! ## Failures -/

/-- What an instruction that cannot be lowered makes of the whole. -/
def Stop.toError (name : String) (i : Instr) : Stop → LowerError
  | crash => .crash
  | fault e => .instr name i.id i.op e

theorem lowerCode_eq_error {k : Nat} {name : String} {code : List Instr} {r : Symbols × Frame}
    {e : LowerError} (h : lowerCode k name code r = .error e) :
    ∃ before i after r₁ stop, code = before ++ i :: after ∧
      (before.map (k, ·)).foldlM lowerStep r = .ok r₁ ∧
      lowerInstr r₁.1 r₁.2 k i = .error stop ∧ e = stop.toError name i := by
  induction code generalizing r with
  | nil => cases h
  | cons i code ih =>
    rw [lowerCode] at h
    split at h
    · rename_i hone
      cases h
      exact ⟨[], i, code, r, .crash, rfl, rfl, hone, rfl⟩
    · rename_i fault hone
      cases h
      exact ⟨[], i, code, r, .fault fault, rfl, rfl, hone, rfl⟩
    · rename_i r' hone
      obtain ⟨before, j, after, r₁, stop, rfl, hrun, hstop, he⟩ := ih h
      exact ⟨i :: before, j, after, r₁, stop, rfl, bind_eq_ok.mpr ⟨r', hone, hrun⟩, hstop, he⟩

/-- How lowering blocks fails: a block is not there or has no place, or an instruction is refused
once those before it are lowered. -/
inductive Fails (bs : List (Option Block)) (r : Symbols × Frame) : LowerError → Prop
  | lost {b : Option Block} (hb : b ∈ bs)
      (hno : b.bind (fun b => r.2.blocks.lookup b.id) = none) : Fails bs r .crash
  | refused {b : Block} {before after : List (Nat × Instr)} {k : Nat} {i : Instr}
      {r' : Symbols × Frame} {stop : Stop} (hb : some b ∈ bs) (hi : i ∈ b.code)
      (hwork : workOf r.2.blocks (bs.filterMap id) = before ++ (k, i) :: after)
      (hrun : before.foldlM lowerStep r = .ok r')
      (hstop : lowerInstr r'.1 r'.2 k i = .error stop) : Fails bs r (stop.toError b.name i)

/-- A failure in the code of the first block. -/
theorem Fails.here {b : Block} {r : Symbols × Frame} {k : Nat} {e : LowerError}
    (hk : r.2.blocks.lookup b.id = some k) (h : lowerCode k b.name b.code r = .error e)
    (bs : List (Option Block)) : Fails (some b :: bs) r e := by
  obtain ⟨before, i, after, r', stop, hsplit, hrun, hstop, rfl⟩ := lowerCode_eq_error h
  have hwork : workOf r.2.blocks ((some b :: bs).filterMap id) = before.map (k, ·) ++
      (k, i) :: (after.map (k, ·) ++ workOf r.2.blocks (bs.filterMap id)) := by
    show workOf r.2.blocks (b :: bs.filterMap id) = _
    rw [workOf_cons hk, hsplit]
    simp
  exact .refused List.mem_cons_self (by simp [hsplit]) hwork hrun hstop

/-- A failure after the first block. -/
theorem Fails.later {b : Block} {bs : List (Option Block)} {r r₁ : Symbols × Frame} {k : Nat}
    {e : LowerError} (hk : r.2.blocks.lookup b.id = some k)
    (hfirst : (b.code.map (k, ·)).foldlM lowerStep r = .ok r₁) (h : Fails bs r₁ e) :
    Fails (some b :: bs) r e := by
  -- the places do not change on the way
  have hblocks : r₁.2.blocks = r.2.blocks := (wrote_of_steps hfirst).blocks
  cases h with
  | lost hb hno => exact .lost (List.mem_cons_of_mem _ hb) (hblocks ▸ hno)
  | @refused b' before after k' i r' stop hb hi hwork hrun hstop =>
    have hall : workOf r.2.blocks ((some b :: bs).filterMap id) =
        (b.code.map (k, ·) ++ before) ++ (k', i) :: after := by
      rw [hblocks] at hwork
      show workOf r.2.blocks (b :: bs.filterMap id) = _
      rw [workOf_cons hk, hwork, List.append_assoc]
    have hruns : (b.code.map (k, ·) ++ before).foldlM lowerStep r = .ok r' := by
      rw [List.foldlM_append]
      exact bind_eq_ok.mpr ⟨r₁, hfirst, hrun⟩
    exact .refused (List.mem_cons_of_mem _ hb) hi hall hruns hstop

theorem fails_of_lowerBlocks {bs : List (Option Block)} {r : Symbols × Frame} {e : LowerError}
    (h : lowerBlocks bs r = .error e) : Fails bs r e := by
  induction bs generalizing r with
  | nil => cases h
  | cons b bs ih =>
    cases b with
    | none =>
      cases h
      exact .lost List.mem_cons_self rfl
    | some b =>
      rw [lowerBlocks] at h
      split at h
      · rename_i hno
        cases h
        exact .lost List.mem_cons_self hno
      · rename_i k hk
        split at h
        · rename_i hcode
          cases h
          exact .here hk hcode bs
        · rename_i hcode
          exact .later hk (lowerCode_eq_ok.mp hcode) (ih h)

/-- A graph that is not lowered has no entry or no order, or its blocks fail. -/
theorem fails_of_lowerGraph {s : Symbols} {place : Nat} {g : Graph} {e : LowerError}
    (h : lowerGraph s place g = .error e) :
    (∃ v, e = .noEntry v) ∨ e = .crash ∨
      ∃ function id entry order, s.functions[place]? = some function ∧ g.entry = some id ∧
        g.lowerOrder? id = some order ∧ Fails order (s, openFrame function g entry) e := by
  unfold lowerGraph at h
  split at h
  · rename_i entry id function _ hid hfun
    split at h
    · cases h
      exact .inr (.inl rfl)
    · rename_i order horder
      split at h
      · rename_i hblocks
        cases h
        exact .inr (.inr ⟨function, id, entry, order, hfun, hid, horder,
          fails_of_lowerBlocks hblocks⟩)
      · cases h
  · cases h
    exact .inl ⟨_, rfl⟩

end Lower

end FlowGraph
