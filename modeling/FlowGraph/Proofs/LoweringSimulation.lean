import FlowGraph.Proofs.LoweredCode

/-!
A run of a lowered program follows the run of the program. Each step of the
program is matched by some steps of the module, or by none when the step only
names a constant or an argument.
-/

namespace FlowGraph

open Llvm (Value Ty Word Regs)

namespace Lower

/-- A run of the function comes to the block at place `k` first: it is the first block, or
the first block does nothing but branch to it. -/
def StartsAt (f : Llvm.Function) (k : Nat) : Prop :=
  k = 0 ∨ ∃ b, f.blocks[0]? = some b ∧ b.code = [] ∧ b.term = some (.br (some k))

/-- A function and its lowered form. -/
structure Lowered (c : Names) (g : Graph) (f : Llvm.Function) : Prop where
  entry : ∃ e k block, g.entry = some e ∧ g.block? e = some block ∧ c.place e = some k ∧
    StartsAt f k
  block : ∀ b k, c.place b = some k → ∃ block b', g.block? b = some block ∧
    f.blocks[k]? = some b' ∧ c.Lowers block.code b'.code b'.term
  placed : ∀ b, (c.place b).isSome ↔ b ∈ g.order
  apart : ∀ x y k, c.place x = some k → c.place y = some k → x = y
  first : ∀ e, g.entry = some e → c.place e = some 0 ∨ ∀ b, c.place b ≠ some 0

/-- A program and its lowered form: a callee of the program is lowered, and any other
has no blocks. -/
structure Linked (p : Program) (m : Llvm.Module) (callee : String → Option Nat) : Prop where
  inside : ∀ name g, p.find? name = some g → ∀ k, callee name = some k →
    ∃ f c, m.functions[k]? = some f ∧ c.callee = callee ∧
      c.params = (fun j => (m.functions[j]?).map (·.params)) ∧ Lowered c g f
  outside : ∀ name, p.find? name = none → ∀ k, callee name = some k →
    ∃ f, m.functions[k]? = some f ∧ f.name = name ∧ f.blocks = []

/-- A function under way in the program, and in the module, apart from where it is. -/
structure Alike (m : Llvm.Module) (callee : String → Option Nat) (a : Activation)
    (b : Llvm.Activation) (c : Names) : Prop where
  callee_eq : c.callee = callee
  params_eq : c.params = fun j => (m.functions[j]?).map (·.params)
  lowered : Lowered c a.graph b.function
  args : b.args = a.args
  agrees : c.Agrees a.args a.env b.regs

/-- A function under way in the program, and at the same place in the module. -/
structure Tracks (m : Llvm.Module) (callee : String → Option Nat) (a : Activation)
    (b : Llvm.Activation) (c : Names) : Prop extends Alike m callee a b c where
  code : c.Lowers a.code b.code b.term

/-- What a run of the program and one of the module have behind them. What waits goes on
well with any result. -/
structure Behind (m : Llvm.Module) (callee : String → Option Nat) (s : Running)
    (t : Llvm.Running) : Prop where
  waiting : List.Forall₂ (fun u w => ∀ x, ∃ c,
    Tracks m callee (u.2.resume u.1 x) (w.2.resume w.1 x) c) s.waiting t.waiting
  calls : t.calls = s.calls

/-- A run of the program, and of the module. -/
structure Shadows (m : Llvm.Module) (callee : String → Option Nat) (s : Running)
    (t : Llvm.Running) : Prop extends Behind m callee s t where
  now : ∃ c, Tracks m callee s.now t.now c

/-! ## Blocks -/

section Steps

variable {p : Program} {m : Llvm.Module} {callee : String → Option Nat} {o : Oracle}
  {s : Running} {t : Llvm.Running}

theorem Alike.jump {a : Activation} {b : Llvm.Activation} {c : Names}
    (h : Alike m callee a b c) {id : BlockId} {k : Nat} (hk : c.place id = some k) :
    ∃ block b', a.graph.block? id = some block ∧ b.function.blocks[k]? = some b' ∧
      Tracks m callee { a with code := block.code } { b with code := b'.code, term := b'.term } c := by
  obtain ⟨block, b', hblock, hb', hlow⟩ := h.lowered.block id k hk
  exact ⟨block, b', hblock, hb', ⟨⟨h.callee_eq, h.params_eq, h.lowered, h.args, h.agrees⟩, hlow⟩⟩

/-- A lowered function starts where the function starts. -/
theorem Lowered.start {c : Names} {g : Graph} {f : Llvm.Function} (h : Lowered c g f)
    (hc : c.callee = callee) (hp : c.params = fun j => (m.functions[j]?).map (·.params))
    (args : List Int64) (waiting : List (Nat × Llvm.Activation)) (calls : List Event) :
    ∃ n b, (Llvm.runs m o).after n
        { now := f.activation args, waiting := waiting, calls := calls } =
        some { now := b, waiting := waiting, calls := calls } ∧
      Tracks m callee (g.activation args) b c := by
  obtain ⟨e, k, block, he, hblock, hk, hstart⟩ := h.entry
  obtain ⟨block', b', hblock', hb', hlow⟩ := h.block e k hk
  rw [hblock] at hblock'
  cases hblock'
  have hcode : (g.activation args).code = block.code := by
    simp [Graph.activation, Graph.entryBlock?, he, hblock]
  have htracks : Tracks m callee (g.activation args)
      { function := f, args := args, code := b'.code, term := b'.term } c := by
    refine ⟨⟨hc, hp, h, rfl, ?_⟩, hcode ▸ hlow⟩
    intro v x hx
    cases hx
  -- the entry has the first place, or the first place has a jump to it
  rcases hstart with rfl | ⟨first, hfirst, hnone, hterm⟩
  · refine ⟨0, _, rfl, ?_⟩
    have hact : f.activation args = { function := f, args := args, code := b'.code, term := b'.term } := by
      simp [Llvm.Function.activation, List.head?_eq_getElem?, hb']
    rw [hact]
    exact htracks
  · refine ⟨1, _, ?_, htracks⟩
    have hact : f.activation args =
        { function := f, args := args, code := [], term := some (.br (some k)) } := by
      simp [Llvm.Function.activation, List.head?_eq_getElem?, hfirst, hnone, hterm]
    apply Llvm.after_step
    rw [hact]
    simp [Llvm.Running.step, Llvm.Running.jump, hb']

/-! ## Results -/

/-- A value that needs no code. -/
theorem Tracks.inline {a : Activation} {b : Llvm.Activation} {c : Names} {i : Instr}
    {rest : List Instr} {x : Int64} {y : Value × Ty} (h : Tracks m callee a b c)
    (hrest : c.Lowers rest b.code b.term) (hy : c.value i.id = some y)
    (hx : Holds a.args b.regs x y) :
    Tracks m callee ({ a with code := rest }.resume i.id x) b c :=
  ⟨⟨h.callee_eq, h.params_eq, h.lowered, h.args, h.agrees.known hy hx⟩, hrest⟩

/-- The operands are widened, and then a result in its register is as good as the value. -/
theorem Tracks.widen {a : Activation} {b : Llvm.Activation} {c : Names} {i : Instr}
    {rest : List Instr} {code : List Llvm.Instr} {ys : List (Value × Ty)} {ty : Ty} {r : Nat}
    {xs : List Int64} (h : Tracks m callee a b c)
    (hys : i.values.mapM c.value = some ys) (hxs : i.values.mapM a.env = some xs)
    (hid : c.value i.id = some (.reg (r + (widenedAll r ys).1.length), ty))
    (hbut : c.FreeBut i.id r (r + (widenedAll r ys).1.length + 1))
    (hrest : c.Lowers rest code b.term) :
    ∃ regs, Llvm.runAll a.args (widenedAll r ys).1 b.regs = some regs ∧
      (widenedAll r ys).2.mapM (Llvm.Value.word? a.args regs) = some xs ∧
      ∀ x w, Holds a.args (regs.set (r + (widenedAll r ys).1.length) w) x
          (.reg (r + (widenedAll r ys).1.length), ty) →
        Tracks m callee ({ a with code := rest }.resume i.id x)
          { b with code := code, regs := regs.set (r + (widenedAll r ys).1.length) w } c := by
  have hfree := hbut.free hid
  have howns : c.FreeBut i.id (r + (widenedAll r ys).1.length) (r + (widenedAll r ys).1.length + 1) :=
    fun v y hv hne => (hbut v y hv hne).mono (by omega) (Nat.le_refl _)
  obtain ⟨regs, hrun, hwords, hsame⟩ :=
    widenedAll_spec (Nat.le_refl _) (h.agrees.operands hfree hxs hys)
  refine ⟨regs, hrun, hwords, fun x w hx => ?_⟩
  exact ⟨⟨h.callee_eq, h.params_eq, h.lowered, h.args,
    (h.agrees.sameBut hfree hsame).set hid howns hx⟩, hrest⟩

/-! ## Steps -/

/-- What the step of the program comes to is what some steps of the module come to. -/
def Matched (m : Llvm.Module) (callee : String → Option Nat) (o : Oracle) (s : Running)
    (t : Llvm.Running) : Move Running → Prop
  | .next s' => ∃ n t', (Llvm.runs m o).after n t = some t' ∧ Shadows m callee s' t'
  | .done x => ∃ n t', (Llvm.runs m o).after n t = some t' ∧ t'.step m o = .done x ∧
      t'.calls = s.calls
  | .stuck => True

theorem Matched.of_after {n : Nat} {t' : Llvm.Running} {move : Move Running}
    (ht : (Llvm.runs m o).after n t = some t') (h : Matched m callee o s t' move) :
    Matched m callee o s t move := by
  cases move with
  | next s' =>
    obtain ⟨k, u, hu, hs⟩ := h
    refine ⟨n + k, u, ?_, hs⟩
    rw [Machine.after_add, ht]
    exact hu
  | done x =>
    obtain ⟨k, u, hu, hd⟩ := h
    refine ⟨n + k, u, ?_, hd⟩
    rw [Machine.after_add, ht]
    exact hu
  | stuck => trivial

/-- A call goes to the same function inside, or makes the same call to the outside. -/
theorem Behind.call (hl : Linked p m callee) (h : Behind m callee s t) {a : Activation}
    {b : Llvm.Activation} {id : ValueId} {n k : Nat} {name : String} {xs : List Int64}
    (hk : callee name = some k) (hparams : (m.functions[k]?).map (·.params) = some xs.length)
    (hback : ∀ x, ∃ c, Tracks m callee (a.resume id x) (b.resume n x) c) :
    ∃ t', t.call m o n k xs b = .next t' ∧ Matched m callee o s t'
      (match p.find? name with
        | none =>
          .next { s with
            now := a.resume id (o s.calls { callee := name, args := xs })
            calls := s.calls ++ [{ callee := name, args := xs }] }
        | some g => .next { s with now := g.activation xs, waiting := (id, a) :: s.waiting }) := by
  obtain ⟨f, hf, hlen⟩ := Option.map_eq_some_iff.mp hparams
  unfold Llvm.Running.call
  cases hfind : p.find? name with
  | none =>
    obtain ⟨f', hf', hname, hempty⟩ := hl.outside name hfind k hk
    rw [hf] at hf'
    cases hf'
    simp only [hf, hlen, hempty, hname, h.calls, List.isEmpty_nil, ne_eq, not_true_eq_false,
      if_true, if_false]
    exact ⟨_, rfl, 0, _, rfl, ⟨⟨h.waiting, rfl⟩, hback _⟩⟩
  | some g =>
    obtain ⟨f', c, hf', hc, hp, hlow⟩ := hl.inside name g hfind k hk
    rw [hf] at hf'
    cases hf'
    have hblocks : f.blocks.isEmpty = false := by
      obtain ⟨e, j, block, -, -, hj, -⟩ := hlow.entry
      obtain ⟨-, b', -, hb', -⟩ := hlow.block e j hj
      cases hfb : f.blocks with
      | nil => simp [hfb] at hb'
      | cons => rfl
    simp only [hf, hlen, hblocks, ne_eq, not_true_eq_false, Bool.false_eq_true, if_false]
    obtain ⟨j, b', hstart, htracks⟩ := hlow.start (o := o) hc hp xs ((n, b) :: t.waiting) t.calls
    exact ⟨_, rfl, j, _, hstart, ⟨⟨.cons hback h.waiting, h.calls⟩, c, htracks⟩⟩

theorem Behind.step_compute (hl : Linked p m callee) (h : Behind m callee s t) {c : Names}
    (hnow : Tracks m callee s.now t.now c) {i : Instr} {rest : List Instr}
    {code : List Llvm.Instr} {ys : List (Value × Ty)} {rhs : Llvm.Rhs} {ty : Ty} {r : Nat}
    (hcode : s.now.code = i :: rest)
    (hcode' : t.now.code = (widenedAll r ys).1 ++ ⟨r + (widenedAll r ys).1.length, rhs⟩ :: code)
    (hys : i.values.mapM c.value = some ys)
    (hrhs : c.rhs? i (widenedAll r ys).2 = some (rhs, ty))
    (hid : c.value i.id = some (.reg (r + (widenedAll r ys).1.length), ty))
    (hbut : c.FreeBut i.id r (r + (widenedAll r ys).1.length + 1))
    (hrest : c.Lowers rest code t.now.term) :
    Matched m callee o s t (s.step p.find? o) := by
  unfold Running.step
  rw [hcode]
  simp only [Instr.perform]
  cases hxs : i.values.mapM s.now.env with
  | none => trivial
  | some xs =>
    obtain ⟨regs, hrun, hwords, htracks⟩ := hnow.widen hys hxs hid hbut hrest
    have hafter := Llvm.after_runAll (m := m) (o := o) _ hcode' (hnow.args ▸ hrun)
    generalize (widenedAll r ys).2 = vs at *
    generalize r + (widenedAll r ys).1.length = n at *
    generalize (widenedAll r ys).1.length = l at *
    -- the operands are widened, and the next step is that of the instruction itself
    have hone : ∀ t', Llvm.Running.step m o
          { t with now := { t.now with code := ⟨n, rhs⟩ :: code, regs := regs } } = .next t' →
        (Llvm.runs m o).after (l + 1) t = some t' := by
      intro t' ht'
      rw [Machine.after_succ hafter]
      exact Llvm.after_step ht'
    rcases Names.rhs?_act hrhs s.now.args xs with hact | ⟨x, hact⟩ | ⟨hact, rfl, k, hk, hparams, rfl⟩
    · simp only [hact]
      trivial
    · obtain ⟨w, hw, hholds⟩ := Names.rhs?_give hrhs hwords hact
      simp only [hact]
      refine ⟨l + 1, _, hone _ (Llvm.Running.step_compute rfl (hnow.args ▸ hw)), ?_⟩
      exact ⟨⟨h.waiting, h.calls⟩, c, htracks x w (hholds n)⟩
    · simp only [hact]
      have hstep := Llvm.Running.step_call (m := m) (o := o)
        (s := { t with now := { t.now with code := ⟨n, .call k vs⟩ :: code, regs := regs } })
        rfl (hnow.args ▸ hwords)
      have hlen : vs.length = xs.length := (mapM_eq_some.mp hwords).length_eq
      rw [hlen, hnow.params_eq] at hparams
      have hback : ∀ x, ∃ c, Tracks m callee ({ s.now with code := rest }.resume i.id x)
          (Llvm.Activation.resume { t.now with code := code, regs := regs } n x) c :=
        fun x => ⟨c, htracks x (.word x) (Names.holds_word n x)⟩
      obtain ⟨t', ht', hmatched⟩ := h.call (o := o) hl (hnow.callee_eq ▸ hk) hparams hback
      exact hmatched.of_after (hone t' (hstep.trans ht'))

theorem Behind.jump (h : Behind m callee s t) {c : Names} (hnow : Alike m callee s.now t.now c)
    {id : BlockId} {k : Nat} (hk : c.place id = some k) :
    ∃ t', t.jump (some k) = .next t' ∧ Matched m callee o s t'
      (match s.now.graph.block? id with
        | none => .stuck
        | some block => .next { s with now := { s.now with code := block.code } }) := by
  obtain ⟨block, b', hblock, hb', htracks⟩ := hnow.jump hk
  unfold Llvm.Running.jump
  simp only [hblock, Option.bind_some, hb']
  exact ⟨_, rfl, 0, _, rfl, ⟨⟨h.waiting, h.calls⟩, c, htracks⟩⟩

/-- Where a run is when the function it is in returns. -/
def returned (s : Running) (x : Int64) : Move Running :=
  match s.waiting with
  | [] => .done x
  | (id, a) :: waiting => .next { s with now := a.resume id x, waiting := waiting }

theorem Behind.leave (h : Behind m callee s t) {v : Value} {x : Int64} (hcode : t.now.code = [])
    (hterm : t.now.term = some (.ret v)) (hv : v.word? t.now.args t.now.regs = some x) :
    Matched m callee o s t (returned s x) := by
  have hw := h.waiting
  unfold returned
  cases hs : s.waiting with
  | nil =>
    rw [hs] at hw
    cases ht : t.waiting with
    | nil =>
      have hstep : t.step m o = .done x := by
        simp only [Llvm.Running.step, hcode, hterm, hv, ht]
      exact ⟨0, t, rfl, hstep, h.calls⟩
    | cons => rw [ht] at hw; cases hw
  | cons u us =>
    rw [hs] at hw
    cases ht : t.waiting with
    | nil => rw [ht] at hw; cases hw
    | cons w ws =>
      have hstep : t.step m o = .next { t with now := w.2.resume w.1 x, waiting := ws } := by
        simp only [Llvm.Running.step, hcode, hterm, hv, ht]
      rw [ht] at hw
      cases hw with
      | cons hback hrest =>
        exact ⟨1, _, Llvm.after_step hstep, ⟨⟨hrest, h.calls⟩, hback x⟩⟩

/-- A step with a result is matched. -/
theorem Behind.step_result (hl : Linked p m callee) (h : Behind m callee s t) {c : Names}
    (hnow : Tracks m callee s.now t.now c) {i : Instr} {rest : List Instr}
    {l code : List Llvm.Instr} {r : Nat} {y : Value × Ty} (hcode : s.now.code = i :: rest)
    (hcode' : t.now.code = l ++ code) (hem : c.Emits r i l none (some y))
    (hid : c.value i.id = some y) (hbut : c.FreeBut i.id r (r + l.length))
    (hrest : c.Lowers rest code t.now.term) : Matched m callee o s t (s.step p.find? o) := by
  cases hem with
  | compute hys hrhs =>
    rw [List.append_assoc] at hcode'
    rw [List.length_append, ← Nat.add_assoc] at hbut
    exact h.step_compute hl hnow hcode hcode' hys hrhs hid hbut hrest
  | const hop =>
    have hrest' : c.Lowers rest t.now.code t.now.term := by rwa [hcode']
    unfold Running.step
    rw [hcode]
    simp only [Instr.perform]
    cases i.values.mapM s.now.env with
    | none => trivial
    | some xs =>
      simp only [Instr.act, hop]
      exact ⟨0, t, rfl, ⟨⟨h.waiting, h.calls⟩, c, hnow.inline hrest' hid rfl⟩⟩
  | arg hop =>
    have hrest' : c.Lowers rest t.now.code t.now.term := by rwa [hcode']
    unfold Running.step
    rw [hcode]
    simp only [Instr.perform]
    cases i.values.mapM s.now.env with
    | none => trivial
    | some xs =>
      simp only [Instr.act, hop]
      cases harg : argument? s.now.args i.imm with
      | none => trivial
      | some x =>
        have hx : Holds s.now.args t.now.regs x (.param i.imm.toInt.toNat, .i64) := by
          unfold argument? at harg
          split at harg
          · cases harg
          · show (s.now.args[i.imm.toInt.toNat]?).map Word.word = some (.word x)
            rw [harg]
            rfl
        exact ⟨0, t, rfl, ⟨⟨h.waiting, h.calls⟩, c, hnow.inline hrest' hid hx⟩⟩

/-- A branch on a value is matched: the value is narrowed to a bit first. -/
theorem Behind.step_brif (h : Behind m callee s t) {c : Names}
    (hnow : Alike m callee s.now t.now c) {i : Instr} {v : ValueId} {yes no : BlockId} {ky kn r : Nat}
    {y : Value × Ty} (hic : s.now.code = [i]) (hlc : t.now.code = (narrowed r y).1)
    (hterm : t.now.term = some (.condBr (narrowed r y).2 (some ky) (some kn))) (hop : i.op = .brif)
    (hargs : i.args = [.value v, .block yes, .block no]) (hv : c.value v = some y)
    (hyes : c.place yes = some ky) (hno : c.place no = some kn)
    (hfree : c.Free r (r + (narrowed r y).1.length)) : Matched m callee o s t (s.step p.find? o) := by
  have hvalues : i.values = [v] := by simp [Action.values, hargs, Operand.value?]
  have htargets := Action.targets_brif hargs
  unfold Running.step
  rw [hic]
  simp only [Instr.perform_one hvalues]
  cases henv : s.now.env v with
  | none => trivial
  | some x =>
    simp only [Instr.act, hop, htargets]
    obtain ⟨regs, hrun, hbit, hsame⟩ := narrowed_spec (hnow.agrees v x henv y hv) r
    have hafter := Llvm.after_runAll (m := m) (o := o) (narrowed r y).1
      (hlc.trans (List.append_nil _).symm) (hnow.args ▸ hrun)
    -- the run stands at the branch, and the registers still hold all values
    have hnow' : Alike m callee s.now { t.now with code := [], regs := regs } c :=
      ⟨hnow.callee_eq, hnow.params_eq, hnow.lowered, hnow.args,
        hnow.agrees.sameBut hfree hsame⟩
    have hbehind : Behind m callee s { t with now := { t.now with code := [], regs := regs } } :=
      ⟨h.waiting, h.calls⟩
    have hk : c.place (if x ≠ 0 then yes else no) = some (if x ≠ 0 then ky else kn) := by
      split <;> assumption
    obtain ⟨t', ht', hmatched⟩ := hbehind.jump (o := o) hnow' hk
    have hstep := Llvm.Running.step_condBr (m := m) (o := o)
      (s := { t with now := { t.now with code := [], regs := regs } }) rfl hterm
      (hnow.args ▸ hbit)
    have hto : (if (x != 0) = true then some ky else some kn) = some (if x ≠ 0 then ky else kn) := by
      by_cases hx : x = 0 <;> simp [hx]
    rw [hto, ht'] at hstep
    exact (hmatched.of_after (Llvm.after_step hstep)).of_after hafter

/-- A return of a value is matched: the value is widened to a number first. -/
theorem Behind.step_ret (h : Behind m callee s t) {c : Names}
    (hnow : Alike m callee s.now t.now c) {i : Instr} {v : ValueId} {r : Nat} {y : Value × Ty}
    (hic : s.now.code = [i]) (hlc : t.now.code = (widened r y).1)
    (hterm : t.now.term = some (.ret (widened r y).2)) (hop : i.op = .ret)
    (hargs : i.args = [.value v]) (hv : c.value v = some y) :
    Matched m callee o s t (s.step p.find? o) := by
  have hvalues : i.values = [v] := by simp [Action.values, hargs, Operand.value?]
  unfold Running.step
  rw [hic]
  simp only [Instr.perform_one hvalues]
  cases henv : s.now.env v with
  | none => trivial
  | some x =>
    simp only [Instr.act, hop]
    obtain ⟨regs, hrun, hword, -⟩ := widened_spec (hnow.agrees v x henv y hv) r
    have hafter := Llvm.after_runAll (m := m) (o := o) (widened r y).1
      (hlc.trans (List.append_nil _).symm) (hnow.args ▸ hrun)
    have hbehind : Behind m callee s { t with now := { t.now with code := [], regs := regs } } :=
      ⟨h.waiting, h.calls⟩
    exact (hbehind.leave rfl hterm (hnow.args ▸ hword)).of_after hafter

/-- The last step of a block is matched. -/
theorem Behind.step_last (h : Behind m callee s t) {c : Names}
    (hnow : Alike m callee s.now t.now c) {i : Instr} {l : List Llvm.Instr} {r : Nat}
    {term : Llvm.Term} (hic : s.now.code = [i]) (hlc : t.now.code = l)
    (hterm : t.now.term = some term) (hem : c.Emits r i l (some term) none)
    (hfree : c.Free r (r + l.length)) : Matched m callee o s t (s.step p.find? o) := by
  cases hem with
  | br hop hargs hk =>
    obtain ⟨t', ht', hmatched⟩ := h.jump (o := o) hnow hk
    have hstep : t.step m o = .next t' := by
      unfold Llvm.Running.step
      simp only [hlc, hterm]
      exact ht'
    unfold Running.step
    rw [hic]
    simp only [Instr.perform_br hop hargs]
    exact hmatched.of_after (Llvm.after_step hstep)
  | brif hop hargs hv hyes hno =>
    exact h.step_brif hnow hic hlc hterm hop hargs hv hyes hno hfree
  | leave hop hargs =>
    have hvalues : i.values = [] := by simp [Action.values, hargs]
    unfold Running.step
    rw [hic]
    simp only [Instr.perform, hvalues, List.mapM_nil, Option.pure_def, Instr.act, hop]
    exact h.leave hlc hterm rfl
  | ret hop hargs hv => exact h.step_ret hnow hic hlc hterm hop hargs hv

/-- Every step is matched. -/
theorem Shadows.step (hl : Linked p m callee) (h : Shadows m callee s t) :
    Matched m callee o s t (s.step p.find? o) := by
  obtain ⟨c, hnow⟩ := h.now
  have hcode := hnow.code
  generalize hic : s.now.code = ic at hcode
  generalize hlc : t.now.code = lc at hcode
  generalize hterm : t.now.term = term at hcode
  cases hcode with
  | step hem hid hbut hrest => exact h.toBehind.step_result hl hnow hic hlc hem hid hbut (hterm ▸ hrest)
  | last hem hfree => exact h.toBehind.step_last hnow.toAlike hic hlc hterm hem hfree

/-! ## Runs -/

/-- A run of the module returns what the run of the program returns, after the same calls. -/
theorem Shadows.returns (hl : Linked p m callee) (h : Shadows m callee s t) {calls : List Event}
    {x : Int64} (hb : (runs p.find? o).Behaves s (.returns calls x)) :
    (Llvm.runs m o).Behaves t (.returns calls x) := by
  obtain ⟨n, s', hafter, hdone, hcalls⟩ := hb
  induction n generalizing s t with
  | zero =>
    cases hafter
    have hmatched := h.step (o := o) hl
    rw [show s'.step p.find? o = .done x from hdone] at hmatched
    obtain ⟨k, t', ht', hd, hc⟩ := hmatched
    exact ⟨k, t', ht', hd, hc.trans hcalls⟩
  | succ n ih =>
    have hmatched := h.step (o := o) hl
    unfold Machine.after at hafter
    split at hafter
    · rename_i s₁ hs₁
      rw [show s.step p.find? o = .next s₁ from hs₁] at hmatched
      obtain ⟨k, t₁, ht₁, hshadows⟩ := hmatched
      exact Machine.behaves_of_after ht₁ (ih hshadows hafter)
    · cases hafter

/-- A lowered function returns what the function returns, after the same calls. -/
theorem Lowered.returns (hl : Linked p m callee) {c : Names} {g : Graph} {f : Llvm.Function}
    (h : Lowered c g f) (hc : c.callee = callee)
    (hp : c.params = fun j => (m.functions[j]?).map (·.params)) {args : List Int64}
    {calls : List Event} {x : Int64}
    (hb : (runs p.find? o).Behaves { now := g.activation args } (.returns calls x)) :
    m.Behaves f args o (.returns calls x) := by
  obtain ⟨n, b, hstart, htracks⟩ := h.start (o := o) hc hp args [] []
  have hshadows : Shadows m callee { now := g.activation args } { now := b } :=
    ⟨⟨.nil, rfl⟩, c, htracks⟩
  exact Machine.behaves_of_after hstart (hshadows.returns hl hb)

end Steps

end Lower

end FlowGraph
