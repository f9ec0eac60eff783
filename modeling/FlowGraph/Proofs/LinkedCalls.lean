import FlowGraph.Proofs.Compilation
import FlowGraph.Proofs.OptimizedLowering

/-!
The calls of a lowered program. A callee from outside is declared at the first
call that comes to it, and each later call is held against that declaration.
So whichever call comes first, in the end each name stands for one function, and
all calls of it pass what this function takes. That nothing depends on the order
follows, since it can be said without one when a program is lowered.
-/

namespace FlowGraph

open Llvm (Value Ty)

namespace Lower

/-! ## What a call becomes -/

/-- An instruction calls the function at a place, which is known by the name that it gives,
and passes as many arguments as the function takes. -/
structure Symbols.Calls (s : Symbols) (i : Instr) (k : Nat) (args : List Value) : Prop where
  op : i.op = .call
  callee : (s.defined.lookup i.sym).or (s.externs.lookup i.sym) = some k
  params : (s.functions[k]?).map (·.params) = some args.length
  passed : i.values.length = args.length

section Calls

variable {s s' : Symbols} {f f' : Frame} {i : Instr} {k : Nat} {args : List Value}

theorem Symbols.Calls.of_keeps (h : s.Calls i k args) (hs : s.Keeps s') : s'.Calls i k args := by
  have hknows : Knows s'.names s := s'.knows_names.of_keeps hs
  exact ⟨h.op, hknows.callee _ _ h.callee, hknows.params _ _ h.params, h.passed⟩

/-- Only a call computes its result by a call. -/
theorem Names.rhs?_call {c : Names} {vs : List Value} {ty : Ty}
    (h : c.rhs? i vs = some (.call k args, ty)) :
    i.op = .call ∧ c.callee i.sym = some k ∧ c.params k = some args.length ∧ vs = args := by
  unfold Names.rhs? at h
  split at h
  · cases h
  · cases h
  · cases h
  · obtain ⟨cond, -, hr⟩ := Option.map_eq_some_iff.mp h
    cases hr
  · rename_i hop
    obtain ⟨j, hj, hr⟩ := Option.bind_eq_some_iff.mp h
    split at hr
    · rename_i hparams
      cases hr
      exact ⟨hop, hj, hparams, rfl⟩
    · cases hr
  · cases h

theorem widened_ne_call {r : Nat} {y : Value × Ty} {x : Llvm.Instr} (hx : x ∈ (widened r y).1) :
    x.rhs ≠ .call k args := by
  obtain ⟨v, ty⟩ := y
  cases ty with
  | i64 => cases hx
  | i1 =>
    rw [List.mem_singleton.mp hx]
    simp

theorem narrowed_ne_call {r : Nat} {y : Value × Ty} {x : Llvm.Instr} (hx : x ∈ (narrowed r y).1) :
    x.rhs ≠ .call k args := by
  obtain ⟨v, ty⟩ := y
  cases ty with
  | i1 => cases hx
  | i64 =>
    rw [List.mem_singleton.mp hx]
    simp

theorem widenedAll_ne_call {r : Nat} {ys : List (Value × Ty)} {x : Llvm.Instr}
    (hx : x ∈ (widenedAll r ys).1) : x.rhs ≠ .call k args := by
  induction ys generalizing r with
  | nil => cases hx
  | cons y ys ih =>
    rcases List.mem_append.mp hx with hx | hx
    · exact widened_ne_call hx
    · exact ih hx

/-- A call in the code of an instruction is the call that the instruction makes. -/
theorem Names.Emits.calls {r : Nat} {l : List Llvm.Instr} {term : Option Llvm.Term}
    {y : Option (Value × Ty)} (h : (names s f).Emits r i l term y) {x : Llvm.Instr} (hx : x ∈ l)
    (hcall : x.rhs = .call k args) : s.Calls i k args := by
  cases h with
  | const | arg | br | leave => cases hx
  | brif => exact absurd hcall (narrowed_ne_call hx)
  | ret => exact absurd hcall (widened_ne_call hx)
  | @compute ys rhs ty hys hrhs =>
    rcases List.mem_append.mp hx with hx | hx
    · exact absurd hcall (widenedAll_ne_call hx)
    · rw [List.mem_singleton.mp hx] at hcall
      have hcall : rhs = .call k args := hcall
      subst hcall
      obtain ⟨hop, hcallee, hparams, hargs⟩ := Names.rhs?_call hrhs
      refine ⟨hop, hcallee, hparams, ?_⟩
      rw [(mapM_eq_some.mp hys).length_eq, ← hargs, length_widenedAll]

end Calls

/-! ## All calls of a function -/

/-- The calls of a function are those of some instructions. -/
def Symbols.Leads (s : Symbols) (is : Instr → Prop) (f : Llvm.Function) : Prop :=
  ∀ b ∈ f.blocks, ∀ x ∈ b.code, ∀ k args, x.rhs = .call k args → ∃ i, is i ∧ s.Calls i k args

section Leads

variable {s s' : Symbols} {f f' : Frame} {is : Instr → Prop} {function : Llvm.Function}
  {count : Nat}

theorem Symbols.Leads.of_keeps (h : s.Leads is function) (hs : s.Keeps s') :
    s'.Leads is function := by
  intro b hb x hx k args hcall
  obtain ⟨i, hi, hcalls⟩ := h b hb x hx k args hcall
  exact ⟨i, hi, hcalls.of_keeps hs⟩

theorem Symbols.leads_of_bare (s : Symbols) (is : Instr → Prop) (h : function.blocks = []) :
    s.Leads is function := by
  simp [Symbols.Leads, h]

theorem Adds.leads {i : Instr} {place : Nat} (h : Adds s f f' place i) (hi : is i)
    (hf : s.Leads is f.function) : s.Leads is f'.function := by
  obtain ⟨l, term, y, hem, rfl⟩ := h
  intro b hb x hx k args hcall
  obtain ⟨j, hj⟩ := List.mem_iff_getElem?.mp hb
  have hj : (f.function.extend place l term).blocks[j]? = some b := hj
  rw [Llvm.Function.extend_getElem?] at hj
  split at hj
  · obtain ⟨b₀, hb₀, rfl⟩ := Option.map_eq_some_iff.mp hj
    -- the code of the instruction stands after what was there
    rcases List.mem_append.mp hx with hx | hx
    · exact hf b₀ (List.mem_of_getElem? hb₀) x hx k args hcall
    · exact ⟨i, hi, hem.calls hx hcall⟩
  · exact hf b (List.mem_of_getElem? hj) x hx k args hcall

theorem steps_leads {ws : List (Nat × Instr)} (hs : s.Sound count) (hable : AbleAll f ws)
    (his : ∀ w ∈ ws, is w.2) (h : ws.foldlM lowerStep (s, f) = .ok (s', f'))
    (hf : s.Leads is f.function) : s'.Leads is f'.function := by
  induction ws generalizing s f with
  | nil =>
    cases h
    exact hf
  | cons w ws ih =>
    obtain ⟨⟨s₁, f₁⟩, hone, hrest⟩ := bind_eq_ok.mp h
    obtain ⟨hw, hin⟩ := hable w List.mem_cons_self
    obtain ⟨hisw, hisws⟩ := List.forall_mem_cons.mp his
    obtain ⟨hgrows, hsound, hadds⟩ := lowerInstr_spec hs hw.fits hw.paired hin hone
    exact ih hsound (hable.tail hadds.grows.blocks) hisws hrest
      (hadds.leads hisw (hf.of_keeps hgrows.keeps))

theorem LoweredBy.leads {place : Nat} {g : Graph} {e : BlockId} {entry : Block} {bs : List Block}
    {last : Symbols × Frame} (h : LoweredBy s s' place g function e entry bs last)
    (hs : s.Sound count) (hg : Regular g) (his : ∀ i ∈ g.instrs, is i)
    (hf : s.Leads is function) : s'.Leads is last.2.function := by
  have hwf := hg.wellFormed
  refine (steps_leads hs (h.able hg) ?_ h.run ?_).of_keeps h.keeps
  · exact fun w hw => his _ (h.mem_instrs hwf hw)
  · obtain ⟨more, heq, hmore⟩ := openFrame_bare hwf (h.mem_entry hwf) h.enters.2 function
    rw [heq]
    intro b hb x hx
    rcases List.mem_append.mp hb with hb | hb
    · exact hf b hb x hx
    · rw [hmore b hb] at hx
      cases hx

end Leads

/-! ## All calls of a program -/

/-- The functions of the program stand under their names. -/
def Symbols.Named (s : Symbols) : Prop :=
  ∀ name k, s.defined.lookup name = some k → ∃ f, s.functions[k]? = some f ∧ f.name = name

/-- An instruction of a function of that name. -/
def InstrOf (gs : List Graph) (name : String) (i : Instr) : Prop :=
  ∃ g ∈ gs, g.name = name ∧ i ∈ g.instrs

section Program

variable {s s' : Symbols} {count k : Nat} {name : String}

theorem Symbols.Named.of_keeps (h : s.Named) (hs : s.Keeps s') : s'.Named := by
  intro name k hk
  rw [hs.defined] at hk
  obtain ⟨f, hf, hname⟩ := h name k hk
  obtain ⟨f', hf', hname', -⟩ := hs.heads k f hf
  exact ⟨f', hf', hname'.trans hname⟩

theorem named_declared {fs : List Llvm.Function} (h : (fs.map (·.name)).Nodup) :
    (declared fs).Named := by
  intro name k hk
  rw [lookup_declared h, List.getElem?_map] at hk
  exact Option.map_eq_some_iff.mp hk

theorem Symbols.Named.callee (h : s.Named) (hs : s.Sound count)
    (hk : (s.defined.lookup name).or (s.externs.lookup name) = some k) :
    ∃ f, s.functions[k]? = some f ∧ f.name = name := by
  rcases Option.or_eq_some_iff.mp hk with hd | ⟨-, hx⟩
  · exact h name k hd
  · obtain ⟨-, -, f, hf, hname, -⟩ := hs.externs name k hx
    exact ⟨f, hf, hname⟩

/-- The calls of each function are those of the graph of its name, also when more functions
are lowered after it. -/
theorem lowerAll_leads {gs all : List Graph} (hs : s.Sound count) (hnamed : s.Named)
    (hreg : ∀ g ∈ gs, Regular g) (hin : ∀ g ∈ gs, g ∈ all) (h : lowerAll gs s = .ok s')
    (hall : ∀ f ∈ s.functions, s.Leads (InstrOf all f.name) f) :
    ∀ f ∈ s'.functions, s'.Leads (InstrOf all f.name) f := by
  induction gs generalizing s with
  | nil =>
    cases h
    exact hall
  | cons g gs ih =>
    obtain ⟨hg, hgs⟩ := List.forall_mem_cons.mp hreg
    obtain ⟨hing, hings⟩ := List.forall_mem_cons.mp hin
    obtain ⟨place, s₁, hplace, hone, hrest⟩ := lowerAll_cons h
    have hwent := lowerGraph_went hg hs (hs.defined _ _ hplace) hone
    refine ih hwent.sound (hnamed.of_keeps hwent.keeps) hgs hings hrest ?_
    obtain ⟨function, e, entry, bs, last, hlowered⟩ := (lowerGraph_eq_ok hg.wellFormed).mp hone
    -- the graph is lowered into the function of its name
    obtain ⟨function', hfun, hname⟩ := hnamed _ _ hplace
    rw [hlowered.declared] at hfun
    cases hfun
    intro f hf
    rw [hlowered.result] at hf
    rcases List.mem_or_eq_of_mem_set hf with hf | rfl
    · rcases steps_new hlowered.run f hf with hf | hf
      · exact (hall f hf).of_keeps hwent.keeps
      · exact s₁.leads_of_bare _ hf
    · have hhead := hlowered.head.1
      rw [hhead]
      refine hlowered.leads hs hg (fun i hi => ⟨g, hing, hname.symm, hi⟩) ?_
      exact hall function (List.mem_of_getElem? hlowered.declared)

end Program

end Lower

namespace Program

/-- The functions and calls of a module are those of a program. -/
structure Agrees (p : Program) (m : Llvm.Module) : Prop where
  names : (m.functions.map (·.name)).Nodup
  -- the functions with blocks are those of the program, in order
  bodies : (m.functions.filter fun f => !f.blocks.isEmpty).map (·.name) =
    p.functions.map (·.name)
  -- the others are those that are called and not of the program
  declarations : ∀ name, (∃ f ∈ m.functions, f.name = name ∧ f.blocks = []) ↔
    (∀ g ∈ p.functions, g.name ≠ name) ∧
      ∃ g ∈ p.functions, ∃ i ∈ g.instrs, i.op = .call ∧ i.sym = name
  -- what an instruction calls takes as many arguments as it passes
  passes : ∀ g ∈ p.functions, ∀ i ∈ g.instrs, i.op = .call →
    ∃ f ∈ m.functions, f.name = i.sym ∧ f.params = i.values.length
  -- what is called takes as many arguments as are passed, and is what an instruction calls
  calls : ∀ f ∈ m.functions, ∀ b ∈ f.blocks, ∀ x ∈ b.code, ∀ k args, x.rhs = .call k args →
    ∃ callee, m.functions[k]? = some callee ∧ callee.params = args.length ∧
      ∃ g ∈ p.functions, g.name = f.name ∧ ∃ i ∈ g.instrs, i.op = .call ∧
        i.sym = callee.name ∧ i.values.length = args.length

section Lowered

variable {p : Program} {m : Llvm.Module} (hreg : ∀ g ∈ p.functions, Lower.Regular g)
  (hnames : (p.functions.map (·.name)).Nodup) (h : p.lower = .ok m)

include hreg hnames h

/-- A name leads to the only function that has it. -/
theorem lower_nodup : (m.functions.map (·.name)).Nodup := by
  obtain ⟨fs, s, -, hnodup, -, hwent, rfl⟩ := lower_went hreg hnames h
  have hplace : ∀ (k : Nat) f, s.functions[k]? = some f →
      (s.defined.lookup f.name).or (s.externs.lookup f.name) = some k := by
    intro k f hf
    -- the functions of the program come first, and the others are known as from outside
    rcases Nat.lt_or_ge k fs.length with hlt | hge
    · obtain ⟨f', hf', hname, -⟩ := hwent.keeps.heads k _ (List.getElem?_eq_getElem hlt)
      rw [hf] at hf'
      cases hf'
      have hdefined : s.defined.lookup f.name = some k := by
        rw [hwent.keeps.defined, Lower.lookup_declared hnodup, List.getElem?_map, hname]
        exact congrArg (Option.map _) (List.getElem?_eq_getElem hlt)
      rw [hdefined]
      rfl
    · have hextern := hwent.listed (Lower.listed_declared fs) k f hge hf
      rw [(hwent.sound.externs _ _ hextern).1, hextern]
      rfl
  rw [List.nodup_iff_injective_get]
  intro a b hab
  simp only [List.get_eq_getElem, List.getElem_map] at hab
  have ha := hplace a _ (List.getElem?_eq_getElem (by simpa using a.2))
  have hb := hplace b _ (List.getElem?_eq_getElem (by simpa using b.2))
  rw [hab, hb] at ha
  exact Fin.ext (Option.some.inj ha).symm

theorem lower_passes : ∀ g ∈ p.functions, ∀ i ∈ g.instrs, i.op = .call →
    ∃ f ∈ m.functions, f.name = i.sym ∧ f.params = i.values.length := by
  obtain ⟨fs, s, -, hnodup, -, hwent, rfl⟩ := lower_went hreg hnames h
  have hnamed := (Lower.named_declared hnodup).of_keeps hwent.keeps
  intro g hg i hi hop
  have hknown := (hwent.takes i.sym i.values.length).mpr
    (.inr ⟨i, List.mem_flatMap.mpr ⟨g, hg, hi⟩, hop, rfl, rfl⟩)
  obtain ⟨k, hk, hparams⟩ := Option.bind_eq_some_iff.mp hknown
  obtain ⟨f, hf, hname⟩ := hnamed.callee hwent.sound hk
  rw [hf] at hparams
  exact ⟨f, List.mem_of_getElem? hf, hname, Option.some.inj hparams⟩

theorem lower_calls : ∀ f ∈ m.functions, ∀ b ∈ f.blocks, ∀ x ∈ b.code, ∀ k args,
    x.rhs = .call k args → ∃ callee, m.functions[k]? = some callee ∧
      callee.params = args.length ∧ ∃ g ∈ p.functions, g.name = f.name ∧ ∃ i ∈ g.instrs,
        i.op = .call ∧ i.sym = callee.name ∧ i.values.length = args.length := by
  obtain ⟨fs, s, hfs, hnodup, hs, hwent, rfl⟩ := lower_went hreg hnames h
  have hnamed := Lower.named_declared hnodup
  have hbare : ∀ f ∈ fs, (Lower.declared fs).Leads (Lower.InstrOf p.functions f.name) f := by
    intro f hf
    obtain ⟨k, hk⟩ := List.mem_iff_getElem?.mp hf
    obtain ⟨g, -, hdeclare⟩ := getElem?_of_forall₂ hfs.flip hk
    exact Lower.Symbols.leads_of_bare _ _ (Lower.declare?_eq_some hdeclare).2.2
  have hleads := Lower.lowerAll_leads (Lower.declared_sound hnodup) hnamed hreg
    (fun g hg => hg) hs hbare
  intro f hf b hb x hx k args hcall
  obtain ⟨i, ⟨g, hg, hgname, hi⟩, hcalls⟩ := hleads f hf b hb x hx k args hcall
  obtain ⟨callee, hcallee, hname⟩ :=
    (hnamed.of_keeps hwent.keeps).callee hwent.sound hcalls.callee
  have hparams := hcalls.params
  rw [hcallee] at hparams
  exact ⟨callee, hcallee, Option.some.inj hparams, g, hg, hgname, i, hi, hcalls.op, hname.symm,
    hcalls.passed⟩

/-- The first functions of a module are those of the program. -/
theorem map_name_lower :
    (m.functions.take p.functions.length).map (·.name) = p.functions.map (·.name) := by
  obtain ⟨hown, -⟩ := lower_heads hreg hnames h
  apply List.ext_getElem?
  intro k
  rw [List.getElem?_map, List.getElem?_map, List.getElem?_take]
  split
  · rename_i hk
    obtain ⟨f, hf, hname, -⟩ := hown k _ (List.getElem?_eq_getElem hk)
    rw [hf, List.getElem?_eq_getElem hk, Option.map_some, Option.map_some, hname]
  · rename_i hk
    rw [List.getElem?_eq_none (Nat.le_of_not_lt hk)]
    rfl

theorem lower_agrees (hbodies : ∀ f ∈ m.functions.take p.functions.length, f.blocks ≠ []) :
    p.Agrees m := by
  have hrest : ∀ f ∈ m.functions.drop p.functions.length, f.blocks = [] := by
    intro f hf
    obtain ⟨k, hk⟩ := List.mem_iff_getElem?.mp hf
    rw [List.getElem?_drop] at hk
    exact lower_rest hreg hnames h (Nat.le_add_right _ _) hk
  have hsplit := List.take_append_drop p.functions.length m.functions
  constructor
  case names => exact lower_nodup hreg hnames h
  case bodies =>
    have hfirst : (m.functions.take p.functions.length).filter (fun f => !f.blocks.isEmpty) =
        m.functions.take p.functions.length :=
      List.filter_eq_self.mpr fun f hf => by simpa using hbodies f hf
    have hlast : (m.functions.drop p.functions.length).filter (fun f => !f.blocks.isEmpty) = [] :=
      List.filter_eq_nil_iff.mpr fun f hf => by simp [hrest f hf]
    rw [← hsplit, List.filter_append, hfirst, hlast, List.append_nil]
    exact map_name_lower hreg hnames h
  case declarations =>
    obtain ⟨-, hothers⟩ := lower_heads hreg hnames h
    intro name
    constructor
    · rintro ⟨f, hf, rfl, hblocks⟩
      rw [← hsplit] at hf
      rcases List.mem_append.mp hf with hf | hf
      · exact absurd hblocks (hbodies f hf)
      · obtain ⟨hundefined, g, hg, i, hi, hop, hsym, -⟩ :=
          (hothers f.name f.params).mp ⟨f, hf, rfl, rfl⟩
        exact ⟨hundefined, g, hg, i, hi, hop, hsym⟩
    · rintro ⟨hundefined, g, hg, i, hi, hop, hsym⟩
      obtain ⟨f, hf, hname, -⟩ :=
        (hothers name i.values.length).mpr ⟨hundefined, g, hg, i, hi, hop, hsym, rfl⟩
      exact ⟨f, List.mem_of_mem_drop hf, hname, hrest f hf⟩
  case passes => exact lower_passes hreg hnames h
  case calls => exact lower_calls hreg hnames h

end Lowered

/-- That a program is lowered does not depend on the order of its functions. -/
theorem lower_isOk_of_perm {p q : Program} (hreg : ∀ g ∈ p.functions, Lower.Regular g)
    (hnames : (p.functions.map (·.name)).Nodup) (hperm : q.functions.Perm p.functions) :
    (∃ m, p.lower = .ok m) ↔ ∃ m, q.lower = .ok m := by
  -- all that is asked of a program is said of the members of its list
  have hregq : ∀ g ∈ q.functions, Lower.Regular g := fun g hg => hreg g (hperm.mem_iff.mp hg)
  have hnamesq : (q.functions.map (·.name)).Nodup := (hperm.map _).nodup_iff.mpr hnames
  rw [lower_isOk hreg hnames, lower_isOk hregq hnamesq]
  simp only [hperm.mem_iff]

/-- When a program that was read and passed the check is lowered, each of its functions is in the
module once and with a body, each other function that is called is in it once and without, and
every call passes as many arguments as its callee takes. Whether it is lowered does not depend on
the order of its functions. -/
theorem calls_fit_their_callees_in_any_order_of_functions {path : String} {text : List UInt8}
    {p : Program} (hread : Text.read path text = .ok p)
    (hcheck : ∀ g ∈ p.functions, g.fault? = none) :
    (∀ m, p.lower = .ok m → p.Agrees m) ∧
      ∀ gs, gs.Perm p.functions →
        ((∃ m, p.lower = .ok m) ↔ ∃ m, ({ p with functions := gs } : Program).lower = .ok m) := by
  obtain ⟨hreg, hnames⟩ :=
    regular_of_read hread fun g hg => Graph.fault?_eq_none.mp (hcheck g hg)
  obtain ⟨hsane, -⟩ := sane_of_wellRead (Text.wellRead_of_read hread).2 hcheck
  refine ⟨fun m hm => lower_agrees hreg hnames hm ?_, fun gs hgs => ?_⟩
  · -- each function has a block for its entry
    intro f hf
    obtain ⟨callee, -, hfunctions⟩ := lower_spec hsane hnames hm
    obtain ⟨k, hk⟩ := List.mem_iff_getElem?.mp hf
    rw [List.getElem?_take] at hk
    split at hk
    · rename_i hlt
      obtain ⟨f', c, hf', -, -, -, -, hlowered⟩ := hfunctions k _ (List.getElem?_eq_getElem hlt)
      rw [hk] at hf'
      cases hf'
      obtain ⟨e, j, -, -, -, hj, -⟩ := hlowered.entry
      obtain ⟨-, b, -, hb, -⟩ := hlowered.block e j hj
      exact List.ne_nil_of_mem (List.mem_of_getElem? hb)
    · cases hk
  · exact lower_isOk_of_perm hreg hnames hgs

/-- A program with a function that is called before it is written, and one from outside that
both of its functions call. -/
def errands : Program where
  path := "errands"
  functions := [
    Outline.graph {
      name := "main"
      blocks := [("in", [.arg 0, .call "log" [0], .call "pair" [0, 1], .ret [2]])]
      entry := some 0 },
    Outline.graph {
      name := "pair"
      blocks := [("in", [.arg 0, .arg 1, .call "log" [1], .binary .add 0 2, .ret [3]])]
      entry := some 0 }]

def errandsText : List UInt8 :=
  Text.bytesOf ("func main \x7b\nin:\n a = arg 0\n b = call log a\n c = call pair a, b\n ret c\n" ++
    "\x7d\nfunc pair \x7b\nin:\n x = arg 0\n y = arg 1\n z = call log y\n w = add x z\n" ++
    " ret w\n\x7d")

theorem calls_of_errands_fit_their_callees :
    Text.read "errands" errandsText = .ok errands ∧
      (∀ g ∈ errands.functions, g.fault? = none) ∧
      (∃ m, errands.lower = .ok m ∧ errands.Agrees m) ∧
      ∃ m, ({ errands with functions := errands.functions.reverse } : Program).lower = .ok m := by
  have hread : Text.read "errands" errandsText = .ok errands := by decide +kernel
  have hcheck : ∀ g ∈ errands.functions, g.fault? = none := by decide +kernel
  obtain ⟨hagrees, hperm⟩ := calls_fit_their_callees_in_any_order_of_functions hread hcheck
  obtain ⟨m, hm⟩ : ∃ m, errands.lower = .ok m := ⟨_, rfl⟩
  exact ⟨hread, hcheck, ⟨m, hm, hagrees m hm⟩, (hperm _ (List.reverse_perm _)).mp ⟨m, hm⟩⟩

end Program

end FlowGraph
