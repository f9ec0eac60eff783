import FlowGraph.Llvm.Printer
import FlowGraph.Proofs.DepthFirst
import FlowGraph.Proofs.LoweredShape

/-!
When lowering succeeds. An instruction needs the values it names to be lowered
before it, an argument has to be in range, and all calls of a name have to
pass as many arguments. Nothing else can fail on a well-formed graph.
-/

namespace FlowGraph

open Llvm (Value Ty)

/-- The values that an instruction gives: its own, unless it ends a block. -/
def Instr.gives (i : Instr) : List ValueId := if i.isTerminator then [] else [i.id]

theorem Instr.mem_gives {i : Instr} {v : ValueId} :
    v ∈ i.gives ↔ i.isTerminator = false ∧ i.id = v := by
  unfold Instr.gives
  cases i.isTerminator <;> simp [eq_comm]

theorem Instr.gives_of_defines {i : Instr} (h : i.op.defines = true) : i.gives = [i.id] := by
  have hplain : i.isTerminator = false := by
    unfold Action.isTerminator
    cases hop : i.op <;> simp_all [Op.defines, Op.isTerminator, Op.ending]
  simp [Instr.gives, hplain]

/-- A branch names no value and gives none. -/
theorem Action.Fits.silent {i : Instr} (h : i.Fits) (hop : i.op = .br) :
    i.values = [] ∧ i.gives = [] := by
  obtain ⟨t, ht⟩ := h.br_args hop
  refine ⟨by simp [Action.values, ht, Operand.value?], ?_⟩
  simp [Instr.gives, Action.isTerminator, Op.isTerminator, hop, Op.ending]

namespace Lower

/-- An instruction that can only fail for what was lowered before it. -/
structure Able (i : Instr) : Prop where
  fits : i.Fits
  paired : Paired i
  cond : i.op = .cmp → (Cond.ofName? i.cond).isSome

/-- A call passes as many arguments as its callee takes. -/
def Passes (takes : String → Nat) (i : Instr) : Prop :=
  i.op = .call → takes i.sym = i.values.length

/-- Instructions in a row name only values that are known, or given by one before. -/
def Scoped : List ValueId → List Instr → Prop
  | _, [] => True
  | known, i :: rest => (∀ v ∈ i.values, v ∈ known) ∧ Scoped (i.gives ++ known) rest

/-- The number of parameters of a callee that is known. -/
def Symbols.params? (s : Symbols) (name : String) : Option Nat :=
  ((s.defined.lookup name).or (s.externs.lookup name)).bind fun k =>
    (s.functions[k]?).map (·.params)

/-- All callees that are known take so many arguments. -/
def Symbols.Within (s : Symbols) (takes : String → Nat) : Prop :=
  ∀ name n, s.params? name = some n → takes name = n

/-- Each function after the first so many was declared for a call. -/
def Symbols.Listed (s : Symbols) (count : Nat) : Prop :=
  ∀ (k : Nat) f, count ≤ k → s.functions[k]? = some f → s.externs.lookup f.name = some k

/-! ## Callees -/

section Callee

variable {s s' : Symbols} {count k args : Nat} {name : String}

/-- A callee that is known takes some number of arguments. -/
theorem Symbols.Sound.params? (hs : s.Sound count)
    (h : (s.defined.lookup name).or (s.externs.lookup name) = some k) :
    s.params? name = some (s.paramsAt k) := by
  unfold Symbols.params?
  rw [h, Option.bind_some]
  exact Symbols.map_params (hs.lt_length h)

theorem Symbols.callee_isOk (hs : s.Sound count) :
    (∃ r, s.callee name args = .ok r) ↔ ∀ n, s.params? name = some n → n = args := by
  constructor
  · rintro ⟨⟨s', k⟩, h⟩ n hn
    rcases Symbols.callee_cases h with ⟨-, hk, rfl⟩ | ⟨hnone, -⟩
    · rw [hs.params? hk] at hn
      exact (Option.some.inj hn).symm
    · rw [Symbols.params?, hnone] at hn
      cases hn
  · intro hall
    cases h : s.callee name args with
    | ok r => exact ⟨r, rfl⟩
    | error e =>
      obtain ⟨j, hj, hne, -⟩ := Symbols.callee_eq_error h
      exact absurd (hall _ (hs.params? hj)) hne

theorem Symbols.Listed.callee (hl : s.Listed count) (h : s.callee name args = .ok (s', k)) :
    s'.Listed count := by
  rcases Symbols.callee_cases h with ⟨rfl, -⟩ | ⟨hnone, -, rfl⟩
  · exact hl
  · intro j f hj hf
    change (s.functions ++ [{ name := name, params := args }])[j]? = some f at hf
    rcases Nat.lt_or_ge j s.functions.length with hlt | hge
    · rw [List.getElem?_append_left hlt] at hf
      exact (Symbols.callee_grows h).externs _ _ (hl j f hj hf)
    · rw [List.getElem?_append_right hge] at hf
      obtain ⟨hzero, rfl⟩ := List.getElem?_eq_some_iff.mp hf
      have : j - s.functions.length < 1 := hzero
      obtain rfl : j = s.functions.length := by omega
      simp [Symbols.declare]

/-- A call makes its callee known, and no other. -/
theorem Symbols.params?_callee (hs : s.Sound count) (h : s.callee name args = .ok (s', k))
    (other : String) (n : Nat) :
    s'.params? other = some n ↔ s.params? other = some n ∨ name = other ∧ args = n := by
  obtain ⟨-, hk, hparams⟩ := Symbols.callee_spec hs h
  have hown : s'.params? name = some args := by
    unfold Symbols.params?
    rw [hk]
    exact hparams
  by_cases hname : name = other
  · subst hname
    have hagree := (Symbols.callee_isOk hs).mp ⟨_, h⟩
    rw [hown]
    constructor
    · rintro ⟨⟩
      exact .inr ⟨rfl, rfl⟩
    · rintro (hn | ⟨-, rfl⟩)
      · rw [hagree n hn]
      · rfl
  · suffices hsame : s'.params? other = s.params? other by
      rw [hsame]
      simp [hname]
    rcases Symbols.callee_cases h with ⟨rfl, -⟩ | ⟨-, -, rfl⟩
    · rfl
    · unfold Symbols.params? Symbols.declare
      dsimp only
      rw [lookup_cons_ne (Ne.symm hname)]
      apply Option.bind_congr
      intro j hj
      rw [List.getElem?_append_left (hs.lt_length hj)]

end Callee

/-! ## One instruction -/

theorem Frame.operands_isOk {f : Frame} {vs : List ValueId} :
    (∃ ys, f.operands vs = .ok ys) ↔ ∀ v ∈ vs, v ∈ f.values.map (·.1) := by
  simp only [Frame.operands_eq_ok, exists_mapM_eq_some, isSome_lookup]

section Instr

variable {s s' : Symbols} {f f' : Frame} {k : Nat} {i : Instr} {ys : List (Value × Ty)}

theorem Does.inRange (h : Does s f k i ys s' f') : InRange f.function.params i := by
  cases h with
  | arg _ hin => exact hin
  | pair hrhs => rcases hrhs.op with hop | hop | hop | hop <;> simp [InRange, hop]
  | const hop | call hop _ | br hop _ | brif hop _ | leave hop | ret hop => simp [InRange, hop]

/-- Only a call can change what is known of callees. -/
theorem Does.symbols (h : Does s f k i ys s' f') :
    i.op = .call ∧ (∃ j, s.callee i.sym ys.length = .ok (s', j)) ∨ i.op ≠ .call ∧ s' = s := by
  cases h with
  | call hop hcallee => exact .inl ⟨hop, _, hcallee⟩
  | pair hrhs => rcases hrhs.op with hop | hop | hop | hop <;> exact .inr ⟨by simp [hop], rfl⟩
  | const hop | arg hop _ | br hop _ | brif hop _ | leave hop | ret hop =>
    exact .inr ⟨by simp [hop], rfl⟩

theorem lowerInstr_symbols (h : lowerInstr s f k i = .ok (s', f')) :
    i.op = .call ∧ (∃ j, s.callee i.sym i.values.length = .ok (s', j)) ∨
      i.op ≠ .call ∧ s' = s := by
  obtain ⟨ys, hops, hdoes⟩ := lowerInstr_ok h
  rw [← Frame.length_operands hops]
  exact hdoes.symbols

/-- An instruction that can be lowered lacks no operand. It is refused for what was lowered
before it, or for an argument that is not there. -/
theorem Able.refused (hi : Able i) {stop : Stop} (h : Refuses s f i stop) :
    (∃ v ∈ i.values, v ∉ f.values.map (·.1) ∧ stop = .fault (.usedBeforeDefinition v)) ∨
      ¬ InRange f.function.params i ∧ stop = .fault (.argumentOutOfRange i.imm) ∨
      i.op = .call ∧ ∃ j, (s.defined.lookup i.sym).or (s.externs.lookup i.sym) = some j ∧
        s.paramsAt j ≠ i.values.length ∧
        (stop = .fault (.callArity i.sym i.values.length (s.paramsAt j)) ∨
          stop = .fault (.callAgain i.sym i.values.length (s.paramsAt j))) := by
  cases h with
  | early hv hno => exact .inl ⟨_, hv, hno, rfl⟩
  | range hno => exact .inr (.inl ⟨hno, rfl⟩)
  | arity hop hj hne => exact .inr (.inr ⟨hop, _, hj, hne, .inl rfl⟩)
  | again hop hj hne => exact .inr (.inr ⟨hop, _, hj, hne, .inr rfl⟩)
  | cond hop hno =>
    have := hi.cond hop
    simp [hno] at this
  | unknown hop =>
    have := hi.fits.known
    simp [hop, Op.isKnown] at this
  | pair hop hno =>
    have := hi.paired hop
    omega
  | br hop hno =>
    obtain ⟨t, hargs⟩ := hi.fits.br_args hop
    simp [hno] at hargs
  | brif hop hno =>
    obtain ⟨v, yes, no, hargs⟩ := hi.fits.brif_args hop
    simp [Action.values, hargs, Operand.value?] at hno

/-- What an instruction needs to be lowered. -/
theorem lowerInstr_isOk {count : Nat} (hs : s.Sound count) (hi : Able i) :
    (∃ r, lowerInstr s f k i = .ok r) ↔
      (∀ v ∈ i.values, v ∈ f.values.map (·.1)) ∧ InRange f.function.params i ∧
        (i.op = .call → ∀ n, s.params? i.sym = some n → n = i.values.length) := by
  constructor
  · rintro ⟨⟨s', f'⟩, h⟩
    obtain ⟨ys, hops, hdoes⟩ := lowerInstr_ok h
    refine ⟨Frame.operands_isOk.mp ⟨ys, hops⟩, hdoes.inRange, ?_⟩
    intro hop
    rcases lowerInstr_symbols h with ⟨-, j, hj⟩ | ⟨hno, -⟩
    · exact (Symbols.callee_isOk hs).mp ⟨_, hj⟩
    · exact absurd hop hno
  · rintro ⟨hvalues, hin, hcall⟩
    cases h : lowerInstr s f k i with
    | ok r => exact ⟨r, rfl⟩
    | error stop =>
      rcases hi.refused (lowerInstr_refuses h) with ⟨v, hv, hno, -⟩ | ⟨hno, -⟩ | ⟨hop, j, hj, hne, -⟩
      · exact absurd (hvalues v hv) hno
      · exact absurd hin hno
      · exact absurd (hcall hop _ (hs.params? hj)) hne

/-- An instruction adds the values that it gives. -/
theorem lowerInstr_values (h : lowerInstr s f k i = .ok (s', f')) :
    f'.values.map (·.1) = i.gives ++ f.values.map (·.1) := by
  obtain ⟨-, l, t, y, rfl, hy, -⟩ := lowerInstr_writes h
  unfold Instr.gives Frame.extend
  cases hends : i.isTerminator with
  | true =>
    obtain rfl : y = none := by simpa [hends] using hy
    rfl
  | false =>
    obtain ⟨y, rfl⟩ : ∃ z, y = some z := Option.isSome_iff_exists.mp (by simpa [hends] using hy)
    rfl

/-- What an instruction leaves behind for those after it. -/
structure Went (s s' : Symbols) (f f' : Frame) (i : Instr) (count : Nat) : Prop where
  grows : s.Grows s'
  sound : s'.Sound count
  listed : s.Listed count → s'.Listed count
  blocks : f'.blocks = f.blocks
  params : f'.function.params = f.function.params
  values : f'.values.map (·.1) = i.gives ++ f.values.map (·.1)
  takes : ∀ name n, s'.params? name = some n ↔
    s.params? name = some n ∨ i.op = .call ∧ i.sym = name ∧ i.values.length = n

theorem lowerInstr_went {count : Nat} (hs : s.Sound count) (hi : Able i)
    (hin : ∀ t ∈ i.targets, (f.blocks.lookup t).isSome)
    (h : lowerInstr s f k i = .ok (s', f')) : Went s s' f f' i count := by
  obtain ⟨hgrows, hsound, l, term, y, hem, rfl⟩ := lowerInstr_spec hs hi.fits hi.paired hin h
  refine ⟨hgrows, hsound, ?_, rfl, rfl, ?_, ?_⟩
  · rcases lowerInstr_symbols h with ⟨-, j, hj⟩ | ⟨-, rfl⟩
    · exact fun hl => hl.callee hj
    · exact fun hl => hl
  · exact lowerInstr_values h
  · intro name n
    rcases lowerInstr_symbols h with ⟨hop, j, hj⟩ | ⟨hop, rfl⟩
    · rw [Symbols.params?_callee hs hj]
      simp [hop]
    · simp [hop]

end Instr

/-! ## Instructions in a row -/

/-- What instructions in a row leave behind. -/
structure WentAll (s s' : Symbols) (is : List Instr) (count : Nat) : Prop where
  keeps : s.Keeps s'
  sound : s'.Sound count
  listed : s.Listed count → s'.Listed count
  takes : ∀ name n, s'.params? name = some n ↔
    s.params? name = some n ∨ ∃ i ∈ is, i.op = .call ∧ i.sym = name ∧ i.values.length = n

/-- The instructions can be lowered, and their blocks have places. -/
def AbleAll (f : Frame) (ws : List (Nat × Instr)) : Prop :=
  ∀ w ∈ ws, Able w.2 ∧ ∀ t ∈ w.2.targets, (f.blocks.lookup t).isSome

section Steps

variable {s s' : Symbols} {f f' : Frame} {count : Nat} {ws : List (Nat × Instr)}

theorem AbleAll.tail {w : Nat × Instr} (h : AbleAll f (w :: ws)) (hblocks : f'.blocks = f.blocks) :
    AbleAll f' ws := by
  intro w' hw'
  rw [hblocks]
  exact h w' (List.mem_cons_of_mem w hw')

theorem WentAll.nil (hs : s.Sound count) : WentAll s s [] count :=
  ⟨(Symbols.Grows.refl s).keeps, hs, fun h => h, by simp⟩

theorem WentAll.trans {s'' : Symbols} {is is' : List Instr} (h : WentAll s s' is count)
    (h' : WentAll s' s'' is' count) : WentAll s s'' (is ++ is') count := by
  refine ⟨h.keeps.trans h'.keeps, h'.sound, fun hl => h'.listed (h.listed hl), ?_⟩
  intro name n
  rw [h'.takes, h.takes]
  simp only [List.mem_append, or_and_right, exists_or, or_assoc]

theorem Went.all {i : Instr} (h : Went s s' f f' i count) : WentAll s s' [i] count :=
  ⟨h.grows.keeps, h.sound, h.listed, by simpa using h.takes⟩

theorem steps_went (hs : s.Sound count) (hable : AbleAll f ws)
    (h : ws.foldlM lowerStep (s, f) = .ok (s', f')) :
    WentAll s s' (ws.map (·.2)) count := by
  induction ws generalizing s f with
  | nil =>
    cases h
    exact .nil hs
  | cons w ws ih =>
    obtain ⟨⟨s₁, f₁⟩, hone, hrest⟩ := bind_eq_ok.mp h
    have hw := hable w List.mem_cons_self
    have hwent := lowerInstr_went hs hw.1 hw.2 hone
    exact hwent.all.trans (ih hwent.sound (hable.tail hwent.blocks) hrest)

/-- Callees take what the known ones take and what is passed to them. -/
theorem WentAll.within {is : List Instr} (h : WentAll s s' is count) (takes : String → Nat) :
    s'.Within takes ↔ s.Within takes ∧ ∀ i ∈ is, Passes takes i := by
  constructor
  · intro hw
    refine ⟨fun name n hn => hw name n ((h.takes name n).mpr (.inl hn)), ?_⟩
    intro i hi hop
    exact hw i.sym _ ((h.takes _ _).mpr (.inr ⟨i, hi, hop, rfl, rfl⟩))
  · rintro ⟨hw, hpasses⟩ name n hn
    rcases (h.takes name n).mp hn with hn | ⟨i, hi, hop, rfl, rfl⟩
    · exact hw name n hn
    · exact hpasses i hi hop

theorem Symbols.exists_within (s : Symbols) : ∃ takes, s.Within takes := by
  refine ⟨fun name => (s.params? name).getD 0, ?_⟩
  intro name n hn
  simp [hn]

/-- What a row of instructions needs to be lowered. -/
theorem steps_isOk (hs : s.Sound count) (hable : AbleAll f ws) :
    (∃ r, ws.foldlM lowerStep (s, f) = .ok r) ↔
      Scoped (f.values.map (·.1)) (ws.map (·.2)) ∧
        (∀ w ∈ ws, InRange f.function.params w.2) ∧
        ∃ takes, s.Within takes ∧ ∀ w ∈ ws, Passes takes w.2 := by
  induction ws generalizing s f with
  | nil =>
    obtain ⟨takes, hwithin⟩ := s.exists_within
    exact ⟨fun _ => ⟨trivial, by simp, takes, hwithin, by simp⟩, fun _ => ⟨_, rfl⟩⟩
  | cons w ws ih =>
    have hw := hable w List.mem_cons_self
    have hone := lowerInstr_isOk (f := f) (k := w.1) hs hw.1
    rw [List.forall_mem_cons, List.map_cons]
    constructor
    · rintro ⟨r, hr⟩
      obtain ⟨⟨s₁, f₁⟩, hstep, hrest⟩ := bind_eq_ok.mp hr
      have hwent := lowerInstr_went hs hw.1 hw.2 hstep
      obtain ⟨hvalues, hrange, -⟩ := hone.mp ⟨_, hstep⟩
      obtain ⟨hscoped, hranges, takes, hwithin, hpasses⟩ :=
        (ih hwent.sound (hable.tail hwent.blocks)).mp ⟨r, hrest⟩
      rw [hwent.values] at hscoped
      rw [hwent.params] at hranges
      obtain ⟨hbefore, hown⟩ := (hwent.all.within takes).mp hwithin
      exact ⟨⟨hvalues, hscoped⟩, ⟨hrange, hranges⟩, takes, hbefore,
        List.forall_mem_cons.mpr ⟨hown _ List.mem_cons_self, hpasses⟩⟩
    · rintro ⟨⟨hvalues, hscoped⟩, ⟨hrange, hranges⟩, takes, hwithin, hpasses⟩
      obtain ⟨hown, hpasses⟩ := List.forall_mem_cons.mp hpasses
      obtain ⟨⟨s₁, f₁⟩, hstep⟩ := hone.mpr ⟨hvalues, hrange, fun hop n hn =>
        (hwithin _ n hn).symm.trans (hown hop)⟩
      have hwent := lowerInstr_went hs hw.1 hw.2 hstep
      obtain ⟨r, hrest⟩ := (ih hwent.sound (hable.tail hwent.blocks)).mpr ⟨hwent.values ▸ hscoped,
        hwent.params ▸ hranges, takes, (hwent.all.within takes).mpr ⟨hwithin, by simpa using hown⟩,
        hpasses⟩
      exact ⟨r, bind_eq_ok.mpr ⟨_, hstep, hrest⟩⟩

/-- Lowering adds declarations only. -/
theorem steps_new (h : ws.foldlM lowerStep (s, f) = .ok (s', f')) :
    ∀ x ∈ s'.functions, x ∈ s.functions ∨ x.blocks = [] := by
  induction ws generalizing s f with
  | nil =>
    cases h
    exact fun x hx => .inl hx
  | cons w ws ih =>
    obtain ⟨⟨s₁, f₁⟩, hone, hrest⟩ := bind_eq_ok.mp h
    intro x hx
    rcases ih hrest x hx with hx | hx
    · rcases lowerInstr_symbols hone with ⟨-, j, hj⟩ | ⟨-, rfl⟩
      · rcases Symbols.callee_cases hj with ⟨rfl, -⟩ | ⟨-, -, rfl⟩
        · exact .inl hx
        · rcases List.mem_append.mp hx with hx | hx
          · exact .inl hx
          · rw [List.mem_singleton] at hx
            exact .inr (by rw [hx])
      · exact .inl hx
    · exact .inr hx

end Steps

/-! ## Functions -/

/-- A well-formed graph of instructions that can be lowered. -/
structure Regular (g : Graph) : Prop where
  wellFormed : g.WellFormed
  able : ∀ i ∈ g.instrs, Able i

/-- The values of a graph are given before they are named, in the order of lowering. -/
def InScope (g : Graph) : Prop :=
  ∀ (e : BlockId) (bs : List Block), g.entry = some e → g.lowerOrder? e = some (bs.map some) →
    Scoped [] (bs.flatMap (·.code))

section Function

variable {s s' : Symbols} {place count : Nat} {g : Graph} {function : Llvm.Function}

/-- The instructions of a graph can be lowered into a frame that is opened for it. -/
theorem Regular.ableAll (hg : Regular g) {e : BlockId} (he : e ∈ g.order) {entry : Block}
    (hentry : g.block? e = some entry) (function : Llvm.Function) {bs : List Block}
    (hperm : bs.Perm g.blocks) :
    AbleAll (openFrame function g entry) (workOf (openFrame function g entry).blocks bs) := by
  intro w hw
  obtain ⟨b, hb, -, hi⟩ := mem_workOf.mp hw
  obtain ⟨x, hx, hxb⟩ := Graph.mem_blocks.mp (hperm.mem_iff.mp hb)
  refine ⟨hg.able _ (Graph.mem_instrs.mpr ⟨x, hx, b, hxb, hi⟩), ?_⟩
  intro t ht
  have hin := (hg.wellFormed.block_of_mem hx hxb).inside _ hi t ht
  rw [lookup_openFrame_of_mem hg.wellFormed he hentry function hin]
  rfl

/-- There is an order of lowering, and a frame in which all is placed. -/
theorem Regular.ready (hg : Regular g) (function : Llvm.Function) :
    ∃ e entry bs, e ∈ g.order ∧ g.entry = some e ∧ g.block? e = some entry ∧
      g.lowerOrder? e = some (bs.map some) ∧ bs.Perm g.blocks ∧
      AbleAll (openFrame function g entry) (workOf (openFrame function g entry).blocks bs) := by
  obtain ⟨e, he, hge⟩ := hg.wellFormed.entry
  obtain ⟨entry, hentry, -⟩ := hg.wellFormed.block e he
  obtain ⟨l, -, horder⟩ := hg.wellFormed.lowerOrder?_eq he
  obtain ⟨bs, hbs, hperm⟩ := hg.wellFormed.lowerOrder? he horder
  rw [hbs] at horder
  exact ⟨e, entry, bs, he, hge, hentry, horder, hperm, hg.ableAll he hentry function hperm⟩

theorem map_workOf (places : List (BlockId × Nat)) (bs : List Block) :
    (workOf places bs).map (·.2) = bs.flatMap (·.code) := by
  simp [workOf, List.map_flatMap, Function.comp_def]

theorem mem_flatMap_code {bs : List Block} (h : bs.Perm g.blocks) {i : Instr} :
    i ∈ bs.flatMap (·.code) ↔ i ∈ g.instrs :=
  (h.flatMap_right (·.code)).mem_iff

theorem Symbols.params?_set (hfun : s.functions[place]? = some function) {f : Llvm.Function}
    (hparams : f.params = function.params) (name : String) :
    Symbols.params? { s with functions := s.functions.set place f } name = s.params? name := by
  unfold Symbols.params?
  apply Option.bind_congr
  intro k _
  by_cases hk : place = k
  · subst hk
    rw [List.getElem?_set_self (List.getElem?_eq_some_iff.mp hfun).1, hfun]
    simp [hparams]
  · rw [List.getElem?_set_ne hk]

/-- Blocks without code are added when a frame is opened, and nothing else. -/
theorem openFrame_bare (hg : g.WellFormed) {e : BlockId} (he : e ∈ g.order) {entry : Block}
    (hentry : g.block? e = some entry) (function : Llvm.Function) :
    ∃ more, (openFrame function g entry).function =
        { function with blocks := function.blocks ++ more } ∧
      ∀ b ∈ more, b.code = [] := by
  rw [openFrame_eq hg he hentry]
  refine ⟨_, rfl, fun b hb => ?_⟩
  rcases List.mem_append.mp hb with hb | hb
  · unfold prologue at hb
    split at hb
    · cases hb
    · rw [List.mem_singleton.mp hb]
  · obtain ⟨_, -, rfl⟩ := List.mem_map.mp hb
    rfl

/-- A graph is lowered when its instructions are. -/
theorem lowerGraph_steps (hg : g.WellFormed) (hfun : s.functions[place]? = some function)
    {e : BlockId} (hge : g.entry = some e) {entry : Block} (hentry : g.block? e = some entry)
    {bs : List Block} (horder : g.lowerOrder? e = some (bs.map some)) :
    lowerGraph s place g = .ok s' ↔ ∃ last,
      (workOf (openFrame function g entry).blocks bs).foldlM lowerStep
        (s, openFrame function g entry) = .ok last ∧
      s' = { last.1 with functions := last.1.functions.set place last.2.function } := by
  rw [lowerGraph_eq_ok hg]
  constructor
  · rintro ⟨function', e', entry', bs', last, ⟨hge', hentry'⟩, hfun', horder', hrun, hresult⟩
    rw [hge] at hge'
    cases hge'
    rw [hentry] at hentry'
    cases hentry'
    rw [hfun] at hfun'
    cases hfun'
    rw [horder] at horder'
    obtain rfl : bs = bs' :=
      List.map_injective_iff.mpr (Option.some_injective _) (Option.some.inj horder')
    exact ⟨last, hrun, hresult⟩
  · rintro ⟨last, hrun, hresult⟩
    exact ⟨function, e, entry, bs, last, ⟨hge, hentry⟩, hfun, horder, hrun, hresult⟩

/-- What a graph needs to be lowered. -/
theorem lowerGraph_isOk (hg : Regular g) (hs : s.Sound count)
    (hfun : s.functions[place]? = some function) :
    (∃ s', lowerGraph s place g = .ok s') ↔
      InScope g ∧ (∀ i ∈ g.instrs, InRange function.params i) ∧
        ∃ takes, s.Within takes ∧ ∀ i ∈ g.instrs, Passes takes i := by
  obtain ⟨e, entry, bs, he, hge, hentry, horder, hperm, hable⟩ := hg.ready function
  obtain ⟨hvalues, -, hparams⟩ := openFrame_head function g entry
  have hall : ∀ P : Instr → Prop, (∀ w ∈ workOf (openFrame function g entry).blocks bs, P w.2) ↔
      ∀ i ∈ g.instrs, P i := by
    intro P
    rw [← List.forall_mem_map (P := P), map_workOf]
    simp only [mem_flatMap_code hperm]
  have hscope : InScope g ↔ Scoped [] (bs.flatMap (·.code)) := by
    constructor
    · exact fun h => h e bs hge horder
    · intro h e' bs' hge' horder'
      rw [hge] at hge'
      cases hge'
      rw [horder] at horder'
      obtain rfl : bs = bs' :=
        List.map_injective_iff.mpr (Option.some_injective _) (Option.some.inj horder')
      exact h
  have hsteps := steps_isOk hs hable
  rw [hvalues, hparams, map_workOf, List.map_nil, hall] at hsteps
  simp only [hall] at hsteps
  rw [hscope, ← hsteps]
  simp only [lowerGraph_steps hg.wellFormed hfun hge hentry horder]
  constructor
  · rintro ⟨s', last, hrun, -⟩
    exact ⟨last, hrun⟩
  · rintro ⟨last, hrun⟩
    exact ⟨_, last, hrun, rfl⟩

/-- What lowering a graph leaves behind. -/
theorem lowerGraph_went (hg : Regular g) (hs : s.Sound count) (hplace : place < count)
    (h : lowerGraph s place g = .ok s') : WentAll s s' g.instrs count := by
  obtain ⟨function, hfun⟩ : ∃ function, s.functions[place]? = some function := by
    have := hs.count_le
    exact ⟨_, List.getElem?_eq_getElem (by omega)⟩
  obtain ⟨e, entry, bs, he, hge, hentry, horder, hperm, hable⟩ := hg.ready function
  obtain ⟨⟨s₁, f⟩, hrun, rfl⟩ := (lowerGraph_steps hg.wellFormed hfun hge hentry horder).mp h
  obtain ⟨-, hname, hparams⟩ := openFrame_head function g entry
  have hwent := steps_went hs hable hrun
  have hwrote := wrote_of_steps hrun
  -- the function that is put in has the head of the one that was there
  obtain ⟨f₁, hf₁, hname₁, hparams₁⟩ := hwent.keeps.heads place function hfun
  have hheads : f.function.name = f₁.name ∧ f.function.params = f₁.params := by
    rw [hname₁, hparams₁, ← hname, ← hparams]
    exact ⟨hwrote.name, hwrote.params⟩
  refine ⟨hwent.keeps.trans (Symbols.keeps_set hf₁ hheads.1 hheads.2),
    hwent.sound.set hplace f.function, ?_, ?_⟩
  · intro hl k f' hk hf'
    have hne : place ≠ k := by omega
    rw [List.getElem?_set_ne hne] at hf'
    exact hwent.listed hl k f' hk hf'
  · intro name n
    rw [Symbols.params?_set hf₁ hheads.2, hwent.takes, map_workOf]
    simp only [mem_flatMap_code hperm]

section LoweredBy

variable {e : BlockId} {entry : Block} {bs : List Block} {last : Symbols × Frame}
  (h : LoweredBy s s' place g function e entry bs last)

include h

theorem LoweredBy.able (hg : Regular g) :
    AbleAll (openFrame function g entry) (workOf (openFrame function g entry).blocks bs) :=
  hg.ableAll (h.mem_entry hg.wellFormed) h.enters.2 function (h.perm hg.wellFormed)

theorem LoweredBy.mem_instrs (hg : g.WellFormed) {w : Nat × Instr}
    (hw : w ∈ workOf (openFrame function g entry).blocks bs) : w.2 ∈ g.instrs := by
  obtain ⟨b, hb, -, hi⟩ := mem_workOf.mp hw
  exact (mem_flatMap_code (h.perm hg)).mp (List.mem_flatMap.mpr ⟨b, hb, hi⟩)

/-- Putting the function into its place takes nothing away that was known. -/
theorem LoweredBy.keeps : last.1.Keeps s' := by
  obtain ⟨hname, hparams⟩ := h.head
  rw [h.result]
  exact Symbols.keeps_set ((wrote_of_steps h.run).grows.getElem? h.declared) hname hparams

end LoweredBy

end Function

/-! ## Programs -/

section Program

variable {s s' : Symbols} {count : Nat}

/-- Each function has a declaration with as many parameters as it reads. -/
def Declares (s : Symbols) (gs : List Graph) : Prop :=
  ∀ g ∈ gs, ∃ k f, s.defined.lookup g.name = some k ∧ s.functions[k]? = some f ∧
    (f.params : Int) = g.arity.toInt

theorem Declares.tail {g : Graph} {gs : List Graph} (h : Declares s (g :: gs)) (hk : s.Keeps s') :
    Declares s' gs := by
  intro g' hg'
  obtain ⟨k, f, hlookup, hf, hparams⟩ := h g' (List.mem_cons_of_mem g hg')
  obtain ⟨f', hf', -, hparams'⟩ := hk.heads k f hf
  exact ⟨k, f', hk.defined ▸ hlookup, hf', by rw [hparams', hparams]⟩

theorem lowerAll_went {gs : List Graph} (hs : s.Sound count) (hreg : ∀ g ∈ gs, Regular g)
    (h : lowerAll gs s = .ok s') : WentAll s s' (gs.flatMap (·.instrs)) count := by
  induction gs generalizing s with
  | nil =>
    cases h
    exact .nil hs
  | cons g gs ih =>
    obtain ⟨place, s₁, hplace, hone, hrest⟩ := lowerAll_cons h
    have hwent := lowerGraph_went (hreg g List.mem_cons_self) hs (hs.defined _ _ hplace) hone
    exact hwent.trans (ih hwent.sound (fun g' hg' => hreg g' (List.mem_cons_of_mem g hg')) hrest)

theorem lowerAll_of_lowerGraph {g : Graph} {gs : List Graph} {place : Nat} {s₁ : Symbols}
    (hplace : s.defined.lookup g.name = some place) (h : lowerGraph s place g = .ok s₁) :
    lowerAll (g :: gs) s = lowerAll gs s₁ := by
  rw [lowerAll]
  simp only [hplace, h]

/-- What the graphs of a list need to be lowered. -/
theorem lowerAll_isOk {gs : List Graph} (hs : s.Sound count) (hreg : ∀ g ∈ gs, Regular g)
    (hdeclares : Declares s gs) :
    (∃ s', lowerAll gs s = .ok s') ↔
      (∀ g ∈ gs, InScope g ∧ ∀ i ∈ g.instrs, InRange g.arity.toInt i) ∧
        ∃ takes, s.Within takes ∧ ∀ g ∈ gs, ∀ i ∈ g.instrs, Passes takes i := by
  induction gs generalizing s with
  | nil =>
    obtain ⟨takes, hwithin⟩ := s.exists_within
    exact ⟨fun _ => ⟨by simp, takes, hwithin, by simp⟩, fun _ => ⟨s, rfl⟩⟩
  | cons g gs ih =>
    obtain ⟨hg, hgs⟩ := List.forall_mem_cons.mp hreg
    obtain ⟨place, f, hplace, hf, hparams⟩ := hdeclares g List.mem_cons_self
    have hone := lowerGraph_isOk hg hs hf
    rw [hparams] at hone
    rw [List.forall_mem_cons]
    constructor
    · rintro ⟨s', h⟩
      obtain ⟨place', s₁, hplace', hstep, hrest⟩ := lowerAll_cons h
      rw [hplace] at hplace'
      cases hplace'
      have hwent := lowerGraph_went hg hs (hs.defined _ _ hplace) hstep
      obtain ⟨hscope, hrange, -⟩ := hone.mp ⟨s₁, hstep⟩
      obtain ⟨hall, takes, hwithin, hpasses⟩ :=
        (ih hwent.sound hgs (hdeclares.tail hwent.keeps)).mp ⟨s', hrest⟩
      obtain ⟨hbefore, hown⟩ := (hwent.within takes).mp hwithin
      exact ⟨⟨⟨hscope, hrange⟩, hall⟩, takes, hbefore, List.forall_mem_cons.mpr ⟨hown, hpasses⟩⟩
    · rintro ⟨⟨⟨hscope, hrange⟩, hall⟩, takes, hwithin, hpasses⟩
      obtain ⟨hown, hpasses⟩ := List.forall_mem_cons.mp hpasses
      obtain ⟨s₁, hstep⟩ := hone.mpr ⟨hscope, hrange, takes, hwithin, hown⟩
      have hwent := lowerGraph_went hg hs (hs.defined _ _ hplace) hstep
      rw [lowerAll_of_lowerGraph hplace hstep]
      exact (ih hwent.sound hgs (hdeclares.tail hwent.keeps)).mpr
        ⟨hall, takes, (hwent.within takes).mpr ⟨hwithin, hown⟩, hpasses⟩

/-- What holds of declarations, and is kept when a graph is lowered into a function, holds of
all functions. -/
theorem lowerAll_all {P : Llvm.Function → Prop} (hbare : ∀ f, f.blocks = [] → P f)
    {gs : List Graph} (hby : ∀ g ∈ gs, ∀ s s' place function e entry bs last, s.Sound count →
      LoweredBy s s' place g function e entry bs last → P function → P last.2.function)
    (hs : s.Sound count) (hreg : ∀ g ∈ gs, Regular g) (h : lowerAll gs s = .ok s')
    (hall : ∀ f ∈ s.functions, P f) : ∀ f ∈ s'.functions, P f := by
  induction gs generalizing s with
  | nil =>
    cases h
    exact hall
  | cons g gs ih =>
    obtain ⟨hg, hgs⟩ := List.forall_mem_cons.mp hreg
    obtain ⟨hbyg, hbygs⟩ := List.forall_mem_cons.mp hby
    obtain ⟨place, s₁, hplace, hone, hrest⟩ := lowerAll_cons h
    have hwent := lowerGraph_went hg hs (hs.defined _ _ hplace) hone
    refine ih hbygs hwent.sound hgs hrest ?_
    obtain ⟨function, e, entry, bs, last, hlowered⟩ := (lowerGraph_eq_ok hg.wellFormed).mp hone
    have hfunction := hall function (List.mem_of_getElem? hlowered.declared)
    intro f hf
    rw [hlowered.result] at hf
    rcases List.mem_or_eq_of_mem_set hf with hf | rfl
    · rcases steps_new hlowered.run f hf with hf | hf
      · exact hall f hf
      · exact hbare f hf
    · exact hbyg _ _ _ _ _ _ _ _ hs hlowered hfunction

/-- All blocks of a function are ended once a graph was lowered into it. -/
theorem LoweredBy.all_end {place : Nat} {g : Graph} {function : Llvm.Function} {e : BlockId}
    {entry : Block} {bs : List Block} {last : Symbols × Frame} (hg : g.WellFormed)
    (h : LoweredBy s s' place g function e entry bs last)
    (hall : ∀ b ∈ function.blocks, b.term.isSome = true) :
    ∀ b ∈ last.2.function.blocks, b.term.isSome = true := by
  intro b hb
  rw [← List.take_append_drop function.blocks.length last.2.function.blocks, h.take hg] at hb
  rcases List.mem_append.mp hb with hb | hb
  · exact hall b hb
  · rcases h.cases_of_mem hg hb with ⟨hfront, hblock⟩ | ⟨x, hx, hblock⟩
    · rw [h.jump hg hfront] at hblock
      cases hblock
      rfl
    · obtain ⟨block, t, hblock', hterm, -⟩ := h.ends hg hx
      rw [hblock] at hblock'
      cases hblock'
      simp [hterm]

theorem params?_declared {fs : List Llvm.Function} (hnames : (fs.map (·.name)).Nodup)
    {name : String} {n : Nat} :
    (declared fs).params? name = some n ↔ ∃ f ∈ fs, f.name = name ∧ f.params = n := by
  have hexterns : (declared fs).externs = [] := rfl
  have hfunctions : (declared fs).functions = fs := rfl
  unfold Symbols.params?
  rw [hexterns, hfunctions, List.lookup_nil, Option.or_none, Option.bind_eq_some_iff]
  constructor
  · rintro ⟨k, hk, hn⟩
    rw [lookup_declared hnames, List.getElem?_map] at hk
    obtain ⟨f, hf, rfl⟩ := Option.map_eq_some_iff.mp hn
    rw [hf] at hk
    exact ⟨f, List.mem_of_getElem? hf, Option.some.inj hk, rfl⟩
  · rintro ⟨f, hf, rfl, rfl⟩
    obtain ⟨k, hk⟩ := List.mem_iff_getElem?.mp hf
    refine ⟨k, ?_, by rw [hk]; rfl⟩
    rw [lookup_declared hnames, List.getElem?_map, hk]
    rfl

theorem listed_declared (fs : List Llvm.Function) : (declared fs).Listed fs.length := by
  intro k f hk hf
  have := (List.getElem?_eq_some_iff.mp hf).1
  simp only [declared] at this
  omega

theorem declares_declared {p : Program} {fs : List Llvm.Function}
    (hfs : List.Forall₂ (fun g f => declare? g = some f) p.functions fs)
    (hnames : (p.functions.map (·.name)).Nodup) : Declares (declared fs) p.functions := by
  intro g hg
  obtain ⟨k, hk⟩ := List.mem_iff_getElem?.mp hg
  obtain ⟨f, hf, hdeclare⟩ := getElem?_of_forall₂ hfs hk
  obtain ⟨hname, hparams, -⟩ := declare?_eq_some hdeclare
  refine ⟨k, f, ?_, hf, hparams⟩
  rw [lookup_declared (nodup_of_declare hfs hnames), List.getElem?_map, hf, ← hname]
  rfl

/-- The declarations take what the functions read. -/
theorem within_declared {p : Program} {fs : List Llvm.Function}
    (hfs : List.Forall₂ (fun g f => declare? g = some f) p.functions fs)
    (hnames : (p.functions.map (·.name)).Nodup) (takes : String → Nat) :
    (declared fs).Within takes ↔ ∀ g ∈ p.functions, (takes g.name : Int) = g.arity.toInt := by
  have hnodup := nodup_of_declare hfs hnames
  constructor
  · intro h g hg
    obtain ⟨k, hk⟩ := List.mem_iff_getElem?.mp hg
    obtain ⟨f, hf, hdeclare⟩ := getElem?_of_forall₂ hfs hk
    obtain ⟨hname, harity, -⟩ := declare?_eq_some hdeclare
    have hknown := (params?_declared hnodup).mpr ⟨f, List.mem_of_getElem? hf, hname, rfl⟩
    rw [← harity, h g.name f.params hknown]
  · intro h name n hn
    obtain ⟨f, hf, rfl, rfl⟩ := (params?_declared hnodup).mp hn
    obtain ⟨k, hk⟩ := List.mem_iff_getElem?.mp hf
    obtain ⟨g, hg, hdeclare⟩ := getElem?_of_forall₂ hfs.flip hk
    obtain ⟨hname, harity, -⟩ := declare?_eq_some hdeclare
    have htakes := h g (List.mem_of_getElem? hg)
    rw [← harity, ← hname] at htakes
    exact Int.ofNat.inj htakes

end Program

end Lower

/-- A module whose blocks are all ended can be printed. -/
theorem Llvm.Module.text_isOk {m : Llvm.Module}
    (h : ∀ f ∈ m.functions, ∀ b ∈ f.blocks, b.term.isSome = true) : ∃ out, m.text = .ok out := by
  have hblock : ∀ f ∈ m.functions, ∀ x ∈ f.blocks.zipIdx, ∃ t, m.blockText f x.2 x.1 = .ok t := by
    intro f hf x hx
    obtain ⟨t, ht⟩ := Option.isSome_iff_exists.mp (h f hf x.1 (List.fst_mem_of_mem_zipIdx hx))
    exact ⟨_, by rw [Module.blockText, ht]⟩
  have hfunction : ∀ x ∈ m.functions.zipIdx, ∃ t, m.defineText x.2 x.1 = .ok t := by
    intro x hx
    unfold Module.defineText
    split
    · exact ⟨_, rfl⟩
    · obtain ⟨ts, hts⟩ := exists_mapM_eq_ok (hblock x.1 (List.fst_mem_of_mem_zipIdx hx))
      exact ⟨_, bind_eq_ok.mpr ⟨ts, hts, rfl⟩⟩
  obtain ⟨ts, hts⟩ := exists_mapM_eq_ok hfunction
  exact ⟨_, bind_eq_ok.mpr ⟨ts, hts, rfl⟩⟩

namespace Program

variable {p : Program} (hreg : ∀ g ∈ p.functions, Lower.Regular g)
  (hnames : (p.functions.map (·.name)).Nodup)

theorem lower_eq_ok {p : Program} {m : Llvm.Module} :
    p.lower = .ok m ↔ ∃ fs s, List.Forall₂ (fun g f => Lower.declare? g = some f) p.functions fs ∧
      Lower.lowerAll p.functions (Lower.declared fs) = .ok s ∧
      m = { source := p.path, functions := s.functions } := by
  unfold Program.lower
  simp only [← mapM_eq_some]
  cases p.functions.mapM Lower.declare? with
  | none => simp
  | some fs =>
    dsimp only
    rw [map_eq_ok]
    simp only [Option.some.injEq, exists_and_left, exists_eq_left', eq_comm (a := m)]
    rfl

include hreg hnames

/-- A program is lowered when each function can be declared, names its values in order and
reads arguments in range, and all calls pass what their callees take. -/
theorem lower_isOk :
    (∃ m, p.lower = .ok m) ↔
      (∀ g ∈ p.functions, (Lower.declare? g).isSome = true) ∧
      (∀ g ∈ p.functions, Lower.InScope g ∧ ∀ i ∈ g.instrs, Lower.InRange g.arity.toInt i) ∧
        ∃ takes : String → Nat, (∀ g ∈ p.functions, (takes g.name : Int) = g.arity.toInt) ∧
          ∀ g ∈ p.functions, ∀ i ∈ g.instrs, Lower.Passes takes i := by
  have hlower : ∀ fs, List.Forall₂ (fun g f => Lower.declare? g = some f) p.functions fs → _ :=
    fun fs hfs => Lower.lowerAll_isOk (Lower.declared_sound (Lower.nodup_of_declare hfs hnames))
      hreg (Lower.declares_declared hfs hnames)
  constructor
  · rintro ⟨m, hm⟩
    obtain ⟨fs, s, hfs, hs, -⟩ := lower_eq_ok.mp hm
    obtain ⟨hall, takes, hwithin, hpasses⟩ := (hlower fs hfs).mp ⟨s, hs⟩
    exact ⟨exists_mapM_eq_some.mp ⟨fs, mapM_eq_some.mpr hfs⟩, hall, takes,
      (Lower.within_declared hfs hnames takes).mp hwithin, hpasses⟩
  · rintro ⟨hdeclare, hall, takes, htakes, hpasses⟩
    obtain ⟨fs, hfs⟩ := exists_mapM_eq_some.mpr hdeclare
    rw [mapM_eq_some] at hfs
    obtain ⟨s, hs⟩ := (hlower fs hfs).mpr
      ⟨hall, takes, (Lower.within_declared hfs hnames takes).mpr htakes, hpasses⟩
    exact ⟨_, lower_eq_ok.mpr ⟨fs, s, hfs, hs, rfl⟩⟩

/-- What is known of all the symbols of a program once it is lowered. -/
theorem lower_went {m : Llvm.Module} (h : p.lower = .ok m) :
    ∃ fs s, List.Forall₂ (fun g f => Lower.declare? g = some f) p.functions fs ∧
      (fs.map (·.name)).Nodup ∧ Lower.lowerAll p.functions (Lower.declared fs) = .ok s ∧
      Lower.WentAll (Lower.declared fs) s (p.functions.flatMap (·.instrs)) fs.length ∧
      m = { source := p.path, functions := s.functions } := by
  obtain ⟨fs, s, hfs, hs, rfl⟩ := lower_eq_ok.mp h
  have hnodup := Lower.nodup_of_declare hfs hnames
  exact ⟨fs, s, hfs, hnodup, hs, Lower.lowerAll_went (Lower.declared_sound hnodup) hreg hs, rfl⟩

/-- The functions of a lowered program come first, with as many parameters as they read. The
others are the callees from outside, with as many as are passed to them. -/
theorem lower_heads {m : Llvm.Module} (h : p.lower = .ok m) :
    (∀ (k : Nat) g, p.functions[k]? = some g → ∃ f, m.functions[k]? = some f ∧
      f.name = g.name ∧ (f.params : Int) = g.arity.toInt) ∧
    ∀ name n, (∃ f ∈ m.functions.drop p.functions.length, f.name = name ∧ f.params = n) ↔
      (∀ g ∈ p.functions, g.name ≠ name) ∧
        ∃ g ∈ p.functions, ∃ i ∈ g.instrs, i.op = .call ∧ i.sym = name ∧ i.values.length = n := by
  obtain ⟨fs, s, hfs, hnodup, -, hwent, rfl⟩ := lower_went hreg hnames h
  have hlisted := hwent.listed (Lower.listed_declared fs)
  -- a name is defined when it is that of a function
  have hdefined : ∀ name, s.defined.lookup name = none ↔ ∀ g ∈ p.functions, g.name ≠ name := by
    intro name
    rw [hwent.keeps.defined, Option.eq_none_iff_forall_ne_some]
    simp only [ne_eq, Lower.lookup_declared hnodup, Lower.map_name_of_declare hfs,
      ← not_exists, ← List.mem_iff_getElem?, List.mem_map]
    simp
  refine ⟨?_, ?_⟩
  · intro k g hg
    obtain ⟨f, hf, hdeclare⟩ := getElem?_of_forall₂ hfs hg
    obtain ⟨hname, hparams, -⟩ := Lower.declare?_eq_some hdeclare
    obtain ⟨f', hf', hname', hparams'⟩ := hwent.keeps.heads k f hf
    exact ⟨f', hf', hname'.trans hname, by rw [hparams', hparams]⟩
  · intro name n
    have htakes := hwent.takes name n
    simp only [List.mem_flatMap] at htakes
    rw [hfs.length_eq]
    constructor
    · rintro ⟨f, hf, rfl, rfl⟩
      obtain ⟨j, hj⟩ := List.mem_iff_getElem?.mp hf
      rw [List.getElem?_drop] at hj
      have hextern := hlisted _ f (Nat.le_add_right _ _) hj
      have hnone := (hwent.sound.externs _ _ hextern).1
      have hknown : s.params? f.name = some f.params := by
        unfold Lower.Symbols.params?
        rw [hnone, hextern, Option.none_or, Option.bind_some, hj]
        rfl
      have hundefined := (hdefined _).mp hnone
      rcases htakes.mp hknown with hd | ⟨i, ⟨g, hg, hi⟩, hcall⟩
      · obtain ⟨f', hf', hname, -⟩ := (Lower.params?_declared hnodup).mp hd
        have hmem : f.name ∈ fs.map (·.name) := List.mem_map.mpr ⟨f', hf', hname⟩
        rw [Lower.map_name_of_declare hfs] at hmem
        obtain ⟨g, hg, hname⟩ := List.mem_map.mp hmem
        exact absurd hname (hundefined g hg)
      · exact ⟨hundefined, g, hg, i, hi, hcall⟩
    · rintro ⟨hundefined, g, hg, i, hi, hcall⟩
      have hknown := htakes.mpr (.inr ⟨i, ⟨g, hg, hi⟩, hcall⟩)
      unfold Lower.Symbols.params? at hknown
      rw [(hdefined _).mpr hundefined, Option.none_or] at hknown
      obtain ⟨k, hk, hn⟩ := Option.bind_eq_some_iff.mp hknown
      obtain ⟨-, hle, f, hf, hname, -⟩ := hwent.sound.externs _ _ hk
      rw [hf] at hn
      refine ⟨f, List.mem_iff_getElem?.mpr ⟨k - fs.length, ?_⟩, hname, Option.some.inj hn⟩
      rw [List.getElem?_drop, Nat.add_sub_cancel' hle]
      exact hf

/-- The functions after those of the program have no blocks. -/
theorem lower_rest {m : Llvm.Module} (h : p.lower = .ok m) {k : Nat} {f : Llvm.Function}
    (hk : p.functions.length ≤ k) (hf : m.functions[k]? = some f) : f.blocks = [] := by
  obtain ⟨fs, s, hfs, hs, rfl⟩ := lower_eq_ok.mp h
  have hwent := Lower.lowerAll_went
    (Lower.declared_sound (Lower.nodup_of_declare hfs hnames)) hreg hs
  have hlisted := hwent.listed (Lower.listed_declared fs) k f (hfs.length_eq ▸ hk) hf
  obtain ⟨-, -, f', hf', -, hblocks⟩ := hwent.sound.externs _ _ hlisted
  rw [hf] at hf'
  cases hf'
  exact hblocks

/-- What holds of declarations, and is kept when a graph is lowered into a function, holds of
the functions of a lowered program. -/
theorem lower_all {m : Llvm.Module} (h : p.lower = .ok m) {P : Llvm.Function → Prop}
    (hbare : ∀ f, f.blocks = [] → P f)
    (hby : ∀ g ∈ p.functions, ∀ count s s' place function e entry bs last, s.Sound count →
      Lower.LoweredBy s s' place g function e entry bs last → P function → P last.2.function) :
    ∀ f ∈ m.functions, P f := by
  obtain ⟨fs, s, hfs, hs, rfl⟩ := lower_eq_ok.mp h
  refine Lower.lowerAll_all hbare (fun g hg => hby g hg _)
    (Lower.declared_sound (Lower.nodup_of_declare hfs hnames)) hreg hs ?_
  intro f hf
  obtain ⟨k, hk⟩ := List.mem_iff_getElem?.mp hf
  obtain ⟨g, -, hdeclare⟩ := getElem?_of_forall₂ hfs.flip hk
  exact hbare f (Lower.declare?_eq_some hdeclare).2.2

/-- A lowered program can be printed. -/
theorem lower_text {m : Llvm.Module} (h : p.lower = .ok m) : ∃ out, m.text = .ok out := by
  apply Llvm.Module.text_isOk
  refine lower_all hreg hnames h (by simp +contextual) ?_
  intro g hg _ _ _ _ _ _ _ _ _ _ hlowered
  exact hlowered.all_end (hreg g hg).wellFormed

end Program

end FlowGraph
