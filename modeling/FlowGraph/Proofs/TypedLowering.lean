import FlowGraph.Proofs.Parameters

/-!
Lowering stays in bounds. At each step a value that is kept has the type that
is kept with it, a computation takes values of its types, and a branch leads to
a block that is there. One instruction keeps this, so a row of them does.

A function that was read and checked, before and after any row of passes, has
in each instruction the operands that lowering looks at. So lowering it ends:
with all blocks ended, or at an instruction that names a value too early, reads
an argument that is not there, or passes a callee another number of arguments.
-/

namespace FlowGraph

open Llvm (Value Ty)

/-! ## Types of lowered code -/

namespace Llvm

/-- The type of what is computed. All functions return 64-bit integers. -/
def Rhs.ty : Rhs → Ty
  | icmp _ _ _ => .i1
  | arith _ _ _ => .i64
  | zext _ => .i64
  | call _ _ => .i64

def Function.code (f : Function) : List Instr := f.blocks.flatMap (·.code)

/-- The value is one of the function's, and of this type. A register has the type of whatever
fills it. -/
def Function.HasTy (f : Function) : Value → Ty → Prop
  | .const _, t => t = .i64
  | .param n, t => n < f.params ∧ t = .i64
  | .reg n, t => (∃ i ∈ f.code, i.reg = n) ∧ ∀ i ∈ f.code, i.reg = n → i.rhs.ty = t

/-- A computation takes values of the types it is for. -/
def Rhs.Fits (f : Function) : Rhs → Prop
  | arith _ x y => f.HasTy x .i64 ∧ f.HasTy y .i64
  | icmp _ x y => f.HasTy x .i64 ∧ f.HasTy y .i64
  | zext x => f.HasTy x .i1
  | call _ xs => ∀ x ∈ xs, f.HasTy x .i64

/-- What ends a block takes a value of the type it is for, and leads to blocks that are there. -/
structure Term.Fits (f : Function) (t : Term) : Prop where
  cond : ∀ c yes no, t = .condBr c yes no → f.HasTy c .i1
  ret : ∀ x, t = .ret x → f.HasTy x .i64
  targets : ∀ target ∈ t.targets, ∃ k, target = some k ∧ k < f.blocks.length

/-- A function whose code fits. -/
structure Function.Typed (f : Function) : Prop where
  low : ∀ i ∈ f.code, i.reg < f.regs
  code : ∀ i ∈ f.code, i.rhs.Fits f
  term : ∀ b ∈ f.blocks, ∀ t, b.term = some t → t.Fits f

/-- What more code leaves: the values of before, and as many blocks. -/
structure Function.Onward (f f' : Function) : Prop where
  size : f'.blocks.length = f.blocks.length
  keeps : ∀ v t, f.HasTy v t → f'.HasTy v t

section Onward

variable {f f' f'' : Function}

theorem Function.Onward.refl (f : Function) : f.Onward f := ⟨rfl, fun _ _ h => h⟩

theorem Function.Onward.trans (h : f.Onward f') (h' : f'.Onward f'') : f.Onward f'' :=
  ⟨h'.size.trans h.size, fun v t hv => h'.keeps v t (h.keeps v t hv)⟩

theorem Rhs.Fits.onward {rhs : Rhs} (hrhs : rhs.Fits f) (h : f.Onward f') : rhs.Fits f' := by
  cases rhs with
  | arith op x y => exact ⟨h.keeps _ _ hrhs.1, h.keeps _ _ hrhs.2⟩
  | icmp p x y => exact ⟨h.keeps _ _ hrhs.1, h.keeps _ _ hrhs.2⟩
  | zext x => exact h.keeps _ _ hrhs
  | call callee xs => exact fun x hx => h.keeps _ _ (hrhs x hx)

theorem Term.Fits.onward {t : Term} (ht : t.Fits f) (h : f.Onward f') : t.Fits f' where
  cond c yes no heq := h.keeps _ _ (ht.cond c yes no heq)
  ret x heq := h.keeps _ _ (ht.ret x heq)
  targets := by
    rw [h.size]
    exact ht.targets

end Onward

/-! ## Adding to a function -/

namespace Function

variable {f : Function} {k : Nat} (hk : k < f.blocks.length)

include hk

theorem mem_code_emit {rhs : Rhs} {i : Instr} :
    i ∈ (f.emit k rhs).code ↔ i ∈ f.code ∨ i = ⟨f.regs, rhs⟩ := by
  obtain ⟨l, b, r, hsplit, -, hmodify⟩ :=
    List.exists_of_modify (fun b : Block => { b with code := b.code ++ [⟨f.regs, rhs⟩] }) hk
  have hcode : (f.emit k rhs).code = (l ++ { b with code := b.code ++ [⟨f.regs, rhs⟩] } :: r).flatMap
      (·.code) := congrArg (List.flatMap fun b : Block => b.code) hmodify
  rw [hcode, code, hsplit]
  simp only [List.flatMap_append, List.flatMap_cons, List.mem_append, List.mem_singleton]
  grind

theorem code_terminate {t : Term} : (f.terminate k t).code = f.code := by
  obtain ⟨l, b, r, hsplit, -, hmodify⟩ :=
    List.exists_of_modify (fun b : Block => { b with term := some t }) hk
  have hcode : (f.terminate k t).code = (l ++ { b with term := some t } :: r).flatMap (·.code) :=
    congrArg (List.flatMap fun b : Block => b.code) hmodify
  rw [hcode, code, hsplit]
  simp

/-- The new register has the type of what fills it. -/
theorem hasTy_emit (hlow : ∀ i ∈ f.code, i.reg < f.regs) (rhs : Rhs) :
    (f.emit k rhs).HasTy (.reg f.regs) rhs.ty := by
  refine ⟨⟨⟨f.regs, rhs⟩, (mem_code_emit hk).mpr (.inr rfl), rfl⟩, ?_⟩
  intro i hi hreg
  rcases (mem_code_emit hk).mp hi with hi | rfl
  · have := hlow i hi
    omega
  · rfl

theorem onward_emit (hlow : ∀ i ∈ f.code, i.reg < f.regs) (rhs : Rhs) :
    f.Onward (f.emit k rhs) := by
  refine ⟨List.length_modify _ _ _, ?_⟩
  intro v t h
  cases v with
  | const x => exact h
  | param n => exact h
  | reg n =>
    obtain ⟨⟨i, hi, rfl⟩, hty⟩ := h
    refine ⟨⟨i, (mem_code_emit hk).mpr (.inl hi), rfl⟩, ?_⟩
    intro j hj hreg
    rcases (mem_code_emit hk).mp hj with hj | rfl
    · exact hty j hj hreg
    · have hlt := hlow i hi
      have heq : f.regs = i.reg := hreg
      omega

theorem Typed.emit (hf : f.Typed) {rhs : Rhs} (hrhs : rhs.Fits f) : (f.emit k rhs).Typed := by
  have honward := onward_emit hk hf.low rhs
  constructor
  case low =>
    intro i hi
    show i.reg < f.regs + 1
    rcases (mem_code_emit hk).mp hi with hi | rfl
    · exact Nat.lt_succ_of_lt (hf.low i hi)
    · exact Nat.lt_succ_self _
  case code =>
    intro i hi
    rcases (mem_code_emit hk).mp hi with hi | rfl
    · exact (hf.code i hi).onward honward
    · exact hrhs.onward honward
  case term =>
    intro b hb t ht
    rcases mem_modify hb with hb | ⟨b', hb', rfl⟩
    · exact (hf.term b hb t ht).onward honward
    · exact (hf.term b' hb' t ht).onward honward

theorem onward_terminate (t : Term) : f.Onward (f.terminate k t) := by
  refine ⟨List.length_modify _ _ _, ?_⟩
  intro v ty h
  cases v with
  | const x => exact h
  | param n => exact h
  | reg n =>
    unfold HasTy
    rw [code_terminate hk]
    exact h

theorem Typed.terminate (hf : f.Typed) {t : Term} (ht : t.Fits f) : (f.terminate k t).Typed := by
  have honward := onward_terminate hk t
  constructor
  case low =>
    rw [code_terminate hk]
    exact hf.low
  case code =>
    rw [code_terminate hk]
    exact fun i hi => (hf.code i hi).onward honward
  case term =>
    intro b hb t' ht'
    rcases mem_modify hb with hb | ⟨b', -, rfl⟩
    · exact (hf.term b hb t' ht').onward honward
    · cases ht'
      exact ht.onward honward

end Function

end Llvm

namespace Lower

/-! ## One instruction -/

/-- A frame whose code fits, and whose values have the types that are kept with them. -/
structure Frame.Typed (f : Frame) : Prop where
  function : f.function.Typed
  values : ∀ e ∈ f.values, f.function.HasTy e.2.1 e.2.2

/-- The frame with code added to its function, which fits. -/
structure Frame.Onward (f f' : Frame) : Prop where
  typed : f'.function.Typed
  function : f.function.Onward f'.function
  values : f'.values = f.values
  blocks : f'.blocks = f.blocks

theorem Frame.Onward.refl {f : Frame} (hf : f.function.Typed) : f.Onward f :=
  ⟨hf, .refl _, rfl, rfl⟩

theorem Frame.Onward.trans {f f' f'' : Frame} (h : f.Onward f') (h' : f'.Onward f'') :
    f.Onward f'' :=
  ⟨h'.typed, h.function.trans h'.function, h'.values.trans h.values, h'.blocks.trans h.blocks⟩

namespace Frame.Typed

variable {f : Frame} (hf : f.Typed)

include hf

theorem onward {f' : Frame} (h : f.Onward f') : f'.Typed := by
  refine ⟨h.typed, ?_⟩
  intro e he
  rw [h.values] at he
  exact h.function.keeps _ _ (hf.values e he)

theorem define {x : Value} {t : Ty} (hx : f.function.HasTy x t) (id : ValueId) :
    (f.define id x t).Typed :=
  ⟨hf.function, List.forall_mem_cons.mpr ⟨hx, hf.values⟩⟩

theorem operands {vs : List ValueId} {ys : List (Value × Ty)} (h : f.operands vs = .ok ys) :
    ∀ y ∈ ys, f.function.HasTy y.1 y.2 := by
  have hlookups := mapM_eq_some.mp (Frame.operands_eq_ok.mp h)
  intro y hy
  obtain ⟨n, hn⟩ := List.mem_iff_getElem?.mp hy
  obtain ⟨v, -, hv⟩ := getElem?_of_forall₂ hlookups.flip hn
  exact hf.values _ (mem_of_lookup hv)

variable {k : Nat} (hk : k < f.function.blocks.length)

include hk

theorem emit (rhs : Llvm.Rhs) (hrhs : rhs.Fits f.function) :
    f.Onward (f.emit k rhs).1 ∧ (f.emit k rhs).1.function.HasTy (f.emit k rhs).2 rhs.ty :=
  ⟨⟨hf.function.emit hk hrhs, Llvm.Function.onward_emit hk hf.function.low rhs, rfl, rfl⟩,
    Llvm.Function.hasTy_emit hk hf.function.low rhs⟩

theorem widen {y : Value × Ty} (hy : f.function.HasTy y.1 y.2) :
    f.Onward (f.widen k y).1 ∧ (f.widen k y).1.function.HasTy (f.widen k y).2 .i64 := by
  obtain ⟨x, t⟩ := y
  cases t with
  | i64 => exact ⟨.refl hf.function, hy⟩
  | i1 => exact hf.emit hk (.zext x) hy

theorem narrow {y : Value × Ty} (hy : f.function.HasTy y.1 y.2) :
    f.Onward (f.narrow k y).1 ∧ (f.narrow k y).1.function.HasTy (f.narrow k y).2 .i1 := by
  obtain ⟨x, t⟩ := y
  cases t with
  | i1 => exact ⟨.refl hf.function, hy⟩
  | i64 => exact hf.emit hk (.icmp .ne x (.const 0)) ⟨hy, rfl⟩

theorem widenAll {ys : List (Value × Ty)} (hys : ∀ y ∈ ys, f.function.HasTy y.1 y.2) :
    f.Onward (f.widenAll k ys).1 ∧
      ∀ x ∈ (f.widenAll k ys).2, (f.widenAll k ys).1.function.HasTy x .i64 := by
  induction ys generalizing f with
  | nil => exact ⟨.refl hf.function, by simp [Frame.widenAll]⟩
  | cons y ys ih =>
    obtain ⟨hy, hys⟩ := List.forall_mem_cons.mp hys
    obtain ⟨hone, hx⟩ := hf.widen hk hy
    obtain ⟨hrest, hxs⟩ := ih (hf.onward hone) (hone.function.size ▸ hk)
      (fun y' hy' => hone.function.keeps _ _ (hys y' hy'))
    -- the first value is widened before the others, and is still there after them
    refine ⟨hone.trans hrest, List.forall_mem_cons.mpr ⟨?_, hxs⟩⟩
    exact hrest.function.keeps _ _ hx

/-- A result that is computed from values in 64 bits is a value of its type. -/
theorem compute {id : ValueId} {t : Ty} {rhs : List Value → Llvm.Rhs} {ys : List (Value × Ty)}
    (hys : ∀ y ∈ ys, f.function.HasTy y.1 y.2)
    (hty : ∀ xs, xs.length = ys.length → (rhs xs).ty = t)
    (hrhs : ∀ (f' : Llvm.Function) xs, xs.length = ys.length → (∀ x ∈ xs, f'.HasTy x .i64) →
      (rhs xs).Fits f') : (f.compute k id ys rhs t).Typed := by
  have hlen : (f.widenAll k ys).2.length = ys.length := by
    rw [Frame.widenAll_eq]
    exact length_widenedAll _ _
  obtain ⟨hall, hxs⟩ := hf.widenAll hk hys
  have hf₁ := hf.onward hall
  obtain ⟨hone, hr⟩ := hf₁.emit (hall.function.size ▸ hk) _ (hrhs _ _ hlen hxs)
  rw [hty _ hlen] at hr
  exact (hf₁.onward hone).define hr id

theorem pair {i : Instr} {t : Ty} {rhs : Value → Value → Llvm.Rhs} (hrhs : OnPair i rhs t)
    {x y : Value × Ty} (hx : f.function.HasTy x.1 x.2) (hy : f.function.HasTy y.1 y.2) :
    (f.compute k i.id [x, y] (onTwo rhs) t).Typed := by
  apply hf.compute hk (by simpa using ⟨hx, hy⟩)
  · intro xs hlen
    obtain ⟨u, v, rfl⟩ := List.length_eq_two.mp hlen
    cases hrhs <;> rfl
  · intro f' xs hlen hxs
    obtain ⟨u, v, rfl⟩ := List.length_eq_two.mp hlen
    have hboth : f'.HasTy u .i64 ∧ f'.HasTy v .i64 := by simpa using hxs
    cases hrhs <;> exact hboth

theorem ended {t : Llvm.Term} (ht : t.Fits f.function) : (f.ended k t).Typed where
  function := hf.function.terminate hk ht
  values e he := (Llvm.Function.onward_terminate hk t).keeps _ _ (hf.values e he)

end Frame.Typed

/-- An instruction whose block, and whose targets, have places among the blocks. -/
structure Placed (f : Frame) (w : Nat × Instr) : Prop where
  block : w.1 < f.function.blocks.length
  targets : ∀ t ∈ w.2.targets, ∃ k, f.blocks.lookup t = some k ∧ k < f.function.blocks.length

/-- What leads to the places of an instruction's targets leads to blocks that are there. -/
theorem Placed.leads {f : Frame} {k : Nat} {i : Instr} (h : Placed f (k, i))
    {l : List (Option Nat)} (hl : l = i.targets.map (fun b => f.blocks.lookup b)) :
    ∀ target ∈ l, ∃ j, target = some j ∧ j < f.function.blocks.length := by
  subst hl
  intro target htarget
  obtain ⟨b, hb, rfl⟩ := List.mem_map.mp htarget
  exact h.targets b hb

/-- One instruction keeps the types and the bounds. -/
theorem lowerInstr_typed {s s' : Symbols} {f f' : Frame} {k : Nat} {i : Instr} (hf : f.Typed)
    (hplaced : Placed f (k, i)) (hfits : i.Fits) (h : lowerInstr s f k i = .ok (s', f')) :
    f'.Typed := by
  have hk : k < f.function.blocks.length := hplaced.block
  obtain ⟨ys, hops, hdoes⟩ := lowerInstr_ok h
  have hys := hf.operands hops
  cases hdoes with
  | const _ => exact hf.define (x := .const i.imm) rfl i.id
  | arg hop hin =>
    obtain ⟨hlow, hhigh⟩ := hin hop
    refine hf.define (x := .param i.imm.toInt.toNat) ⟨?_, rfl⟩ i.id
    omega
  | pair hrhs => exact hf.pair hk hrhs (hys _ (by simp)) (hys _ (by simp))
  | call _ _ => exact hf.compute hk hys (fun _ _ => rfl) fun _ _ _ hxs => hxs
  | br hop hargs =>
    exact hf.ended hk ⟨by simp, by simp, hplaced.leads (targets_br hop hargs hfits)⟩
  | @brif y _ _ _ _ _ hop hargs =>
    obtain ⟨hone, hc⟩ := hf.narrow hk (hys y List.mem_cons_self)
    apply (hf.onward hone).ended (hone.function.size ▸ hk)
    refine ⟨?_, by simp, ?_⟩
    · rintro _ _ _ ⟨⟩
      exact hc
    · rw [hone.function.size]
      exact hplaced.leads (targets_brif hop hargs hfits)
  | leave _ =>
    refine hf.ended hk ⟨by simp, ?_, by simp [Llvm.Term.targets]⟩
    rintro _ ⟨⟩
    rfl
  | @ret y _ _ =>
    obtain ⟨hone, hx⟩ := hf.widen hk (hys y List.mem_cons_self)
    refine (hf.onward hone).ended (hone.function.size ▸ hk) ⟨by simp, ?_, by simp [Llvm.Term.targets]⟩
    rintro _ ⟨⟩
    exact hx

/-! ## Instructions in a row -/

/-- What one instruction keeps, a row of them keeps. -/
theorem steps_typed {ws : List (Nat × Instr)} {r r' : Symbols × Frame} (hf : r.2.Typed)
    (hws : ∀ w ∈ ws, Placed r.2 w ∧ w.2.Fits) (h : ws.foldlM lowerStep r = .ok r') :
    r'.2.Typed := by
  induction ws generalizing r with
  | nil =>
    cases h
    exact hf
  | cons w ws ih =>
    obtain ⟨r₁, hone, hrest⟩ := bind_eq_ok.mp h
    obtain ⟨⟨hplaced, hfits⟩, hws⟩ := List.forall_mem_cons.mp hws
    obtain ⟨hs, hwrites⟩ := lowerInstr_writes hone
    have hwrote := hwrites.wrote hs
    have hsize : r₁.2.function.blocks.length = r.2.function.blocks.length := by
      simpa using congrArg List.length hwrote.names
    have hblocks : r₁.2.blocks = r.2.blocks := hwrote.blocks
    refine ih (lowerInstr_typed hf hplaced hfits hone) ?_ hrest
    intro w' hw'
    refine ⟨⟨?_, ?_⟩, (hws w' hw').2⟩
    · rw [hsize]
      exact (hws w' hw').1.block
    · rw [hsize, hblocks]
      exact (hws w' hw').1.targets

/-! ## Functions -/

/-- On the way through the instructions of a graph, in the order of lowering and into a
function, lowering comes to this state, with the rest still to come. -/
def ComesTo (s : Symbols) (function : Llvm.Function) (g : Graph) (r : Symbols × Frame)
    (rest : List (Nat × Instr)) : Prop :=
  ∃ e entry bs done, g.entry = some e ∧ g.block? e = some entry ∧
    g.lowerOrder? e = some (bs.map some) ∧
    workOf (openFrame function g entry).blocks bs = done ++ rest ∧
    done.foldlM lowerStep (s, openFrame function g entry) = .ok r

section Opened

variable {g : Graph} (hg : Regular g) {e : BlockId} (he : e ∈ g.order) {entry : Block}
  (hentry : g.block? e = some entry)

include hg he hentry

theorem placeIn_lt (function : Llvm.Function) {b : BlockId} (hb : b ∈ g.order) :
    placeIn g e function.blocks.length b <
      (openFrame function g entry).function.blocks.length :=
  (List.getElem?_eq_some_iff.mp (getElem?_openFrame hg.wellFormed he hentry function hb)).1

/-- All instructions of the graph have places in the frame that is opened. -/
theorem placed_openFrame (function : Llvm.Function) {bs : List Block} (hperm : bs.Perm g.blocks) :
    ∀ w ∈ workOf (openFrame function g entry).blocks bs,
      Placed (openFrame function g entry) w ∧ w.2.Fits := by
  intro w hw
  obtain ⟨b, hb, hk, hi⟩ := mem_workOf.mp hw
  obtain ⟨x, hx, hxb⟩ := Graph.mem_blocks.mp (hperm.mem_iff.mp hb)
  have hblock := hg.wellFormed.block_of_mem hx hxb
  refine ⟨⟨?_, ?_⟩, (hg.able _ (Graph.mem_instrs.mpr ⟨x, hx, b, hxb, hi⟩)).fits⟩
  · rw [hk, hblock.id_eq, lookup_openFrame_of_mem hg.wellFormed he hentry function hx]
    exact placeIn_lt hg he hentry function hx
  · intro t ht
    have hin := hblock.inside _ hi t ht
    exact ⟨_, lookup_openFrame_of_mem hg.wellFormed he hentry function hin,
      placeIn_lt hg he hentry function hin⟩

/-- Before the first instruction there is no code yet, and at most a branch to the entry. -/
theorem openFrame_typed (name : String) (params : Nat) :
    (openFrame { name := name, params := params } g entry).Typed := by
  obtain ⟨hvalues, -, -⟩ := openFrame_head { name := name, params := params } g entry
  obtain ⟨more, hmore, hbare⟩ :=
    openFrame_bare hg.wellFormed he hentry { name := name, params := params }
  have hcode : (openFrame { name := name, params := params } g entry).function.code = [] := by
    rw [hmore]
    exact List.flatMap_eq_nil_iff.mpr hbare
  refine ⟨⟨?_, ?_, ?_⟩, ?_⟩
  · simp [hcode]
  · simp [hcode]
  · intro b hb t ht
    rw [blocks_openFrame hg.wellFormed he hentry, List.nil_append, List.mem_append] at hb
    rcases hb with hb | hb
    · -- the block in front leads to the entry
      have hplace := placeIn_lt hg he hentry { name := name, params := params } he
      rw [placeIn_entry, ← length_prologue hg.wellFormed he hentry 0] at hplace
      unfold prologue at hb hplace
      split at hb
      · cases hb
      · rename_i hpreds
        rw [List.mem_singleton.mp hb] at ht
        cases ht
        rw [if_neg hpreds] at hplace
        refine ⟨by simp, by simp, ?_⟩
        simpa [Llvm.Term.targets] using hplace
    · obtain ⟨x, -, rfl⟩ := List.mem_map.mp hb
      cases ht
  · simp [hvalues]

end Opened

/-- What can be wrong with an instruction that has the operands of its operation, where these
values are known and the function has so many parameters. -/
inductive Blames (known : List ValueId) (params : Nat) (i : Instr) : LowerFault → Prop
  | early {v : ValueId} : v ∈ i.values → v ∉ known → Blames known params i (.usedBeforeDefinition v)
  | range : i.op = .arg → (params : Int) ≤ i.imm.toInt →
      Blames known params i (.argumentOutOfRange i.imm)
  | arity {n : Nat} : i.op = .call → n ≠ i.values.length →
      Blames known params i (.callArity i.sym i.values.length n)
  | again {n : Nat} : i.op = .call → n ≠ i.values.length →
      Blames known params i (.callAgain i.sym i.values.length n)

theorem Able.blames {i : Instr} (hi : Able i) (hlow : i.op = .arg → 0 ≤ i.imm.toInt) {s : Symbols}
    {f : Frame} {k : Nat} {stop : Stop} (h : lowerInstr s f k i = .error stop) :
    ∃ fault, stop = .fault fault ∧ Blames (f.values.map (·.1)) f.function.params i fault := by
  rcases hi.refused (lowerInstr_refuses h) with ⟨v, hv, hno, rfl⟩ | ⟨hno, rfl⟩ | ⟨hop, j, -, hne, hstop⟩
  · exact ⟨_, rfl, .early hv hno⟩
  · unfold InRange at hno
    rw [Classical.not_imp] at hno
    have := hlow hno.1
    exact ⟨_, rfl, .range hno.1 (by omega)⟩
  · rcases hstop with rfl | rfl
    · exact ⟨_, rfl, .arity hop hne⟩
    · exact ⟨_, rfl, .again hop hne⟩

theorem ComesTo.params {s : Symbols} {function : Llvm.Function} {g : Graph} {r : Symbols × Frame}
    {rest : List (Nat × Instr)} (h : ComesTo s function g r rest) :
    r.2.function.params = function.params := by
  obtain ⟨e, entry, bs, done, -, -, -, -, hrun⟩ := h
  rw [(wrote_of_steps hrun).params]
  exact (openFrame_head function g entry).2.2

theorem ComesTo.length_functions {s : Symbols} {function : Llvm.Function} {g : Graph}
    {r : Symbols × Frame} {rest : List (Nat × Instr)} (h : ComesTo s function g r rest) :
    s.functions.length ≤ r.1.functions.length := by
  obtain ⟨e, entry, bs, done, -, -, -, -, hrun⟩ := h
  exact (wrote_of_steps hrun).grows.functions.length_le

section Graph

variable {s : Symbols} {g : Graph} (hg : Regular g)

include hg

/-- The types and the bounds are kept all the way. -/
theorem ComesTo.typed {name : String} {params : Nat} {r : Symbols × Frame}
    {rest : List (Nat × Instr)} (h : ComesTo s { name := name, params := params } g r rest) :
    r.2.Typed := by
  obtain ⟨e, entry, bs, done, hge, hentry, horder, hwork, hrun⟩ := h
  obtain ⟨e', he, hge'⟩ := hg.wellFormed.entry
  rw [hge] at hge'
  cases hge'
  obtain ⟨bs', hbs', hperm⟩ := hg.wellFormed.lowerOrder? he horder
  obtain rfl : bs = bs' := List.map_injective_iff.mpr (Option.some_injective _) hbs'
  have hplaced := placed_openFrame hg he hentry { name := name, params := params } hperm
  rw [hwork] at hplaced
  exact steps_typed (openFrame_typed hg he hentry name params)
    (fun w hw => hplaced w (List.mem_append_left rest hw)) hrun

/-- When all instructions are lowered, all blocks are ended. -/
theorem ComesTo.all_end {place : Nat} {name : String} {params : Nat}
    (hfun : s.functions[place]? = some { name := name, params := params }) {r : Symbols × Frame}
    (h : ComesTo s { name := name, params := params } g r []) :
    ∀ b ∈ r.2.function.blocks, b.term.isSome = true := by
  obtain ⟨e, entry, bs, done, hge, hentry, horder, hwork, hrun⟩ := h
  rw [List.append_nil] at hwork
  subst hwork
  have hby : LoweredBy s _ place g _ e entry bs r := ⟨⟨hge, hentry⟩, hfun, horder, hrun, rfl⟩
  exact hby.all_end hg.wellFormed (by simp)

/-- Lowering comes to the end, or to an instruction that cannot be lowered there. -/
theorem lowerGraph_comesTo (hlow : g.Natural) {place : Nat} {function : Llvm.Function}
    (hfun : s.functions[place]? = some function) :
    (∃ r, ComesTo s function g r [] ∧ lowerGraph s place g =
      .ok { r.1 with functions := r.1.functions.set place r.2.function }) ∨
    ∃ r k i after b fault, ComesTo s function g r ((k, i) :: after) ∧ b ∈ g.blocks ∧ i ∈ b.code ∧
      Blames (r.2.values.map (·.1)) r.2.function.params i fault ∧
      lowerGraph s place g = .error (.instr b.name i.id i.op fault) := by
  obtain ⟨e, he, hge⟩ := hg.wellFormed.entry
  obtain ⟨entry, hentry, -⟩ := hg.wellFormed.block e he
  obtain ⟨l, -, horder⟩ := hg.wellFormed.lowerOrder?_eq he
  obtain ⟨bs, hbs, hperm, hplaced⟩ :=
    lowerOrder?_placed hg.wellFormed he hentry horder function
  rw [hbs] at horder
  unfold lowerGraph
  rw [Graph.entryBlock?, hge, Option.bind_some, hentry, hfun]
  simp only [horder]
  cases hblocks : lowerBlocks (bs.map some) (s, openFrame function g entry) with
  | ok r =>
    have hrun := (lowerBlocks_eq_ok hplaced).mp hblocks
    exact .inl ⟨r, ⟨e, entry, bs, _, hge, hentry, horder, (List.append_nil _).symm, hrun⟩, rfl⟩
  | error err =>
    cases fails_of_lowerBlocks hblocks with
    | lost hb hno =>
      obtain ⟨b, hin, rfl⟩ := List.mem_map.mp hb
      have hsome := hplaced b hin
      rw [show (openFrame function g entry).blocks.lookup b.id = none from hno] at hsome
      cases hsome
    | @refused b done after k i r stop hb hi hwork hrun hstop =>
      have hb : b ∈ bs := by simpa using hb
      have hwork : workOf (openFrame function g entry).blocks bs = done ++ (k, i) :: after := by
        simpa using hwork
      have hin : i ∈ g.instrs :=
        (mem_flatMap_code hperm).mp (List.mem_flatMap.mpr ⟨b, hb, hi⟩)
      obtain ⟨fault, rfl, hblames⟩ := (hg.able i hin).blames (hlow i hin) hstop
      exact .inr ⟨r, k, i, after, b, fault, ⟨e, entry, bs, done, hge, hentry, horder, hwork, hrun⟩,
        hperm.mem_iff.mp hb, hi, hblames, rfl⟩

end Graph

end Lower

/-! ## Functions that are read and checked -/

theorem Graph.Natural.trimmed {g g' : Graph} (h : g.Natural) (hg : g.WellFormed)
    (ht : g.Trimmed g') : g'.Natural := by
  obtain ⟨f, hleft⟩ := ht.instr_of_mem hg
  intro i' hi' hop
  obtain ⟨i, hi, rfl⟩ := hleft i' hi'
  exact h i hi hop

namespace Lower

open Pipeline (leave)

/-- Of a function that is read and checked, what any row of passes leaves is lowered into an
empty function with any number of parameters without a step out of bounds: on the way, values
have their types and branches lead to blocks. In the end all blocks are ended, or an instruction
names a value that is not there yet, reads an argument above the parameters, or calls with
another number of arguments than its callee takes. -/
theorem lowering_a_checked_function_stays_in_bounds {path : String} {text : List UInt8}
    {p : Program} (hread : Text.read path text = .ok p) {g : Graph} (hg : g ∈ p.functions)
    (hcheck : g.fault? = none) {qs : List (Pass Graph)}
    (hqs : ∀ q ∈ qs, q = emptyBlockElimination ∨ q = unreachableBlockElimination) {s : Symbols}
    {place params : Nat} {name : String}
    (hfun : s.functions[place]? = some { name := name, params := params }) :
    (∀ r rest, ComesTo s { name := name, params := params } (leave qs g) r rest → r.2.Typed) ∧
    ((∃ r s', ComesTo s { name := name, params := params } (leave qs g) r [] ∧
      lowerGraph s place (leave qs g) = .ok s' ∧ s'.functions[place]? = some r.2.function ∧
      ∀ b ∈ r.2.function.blocks, b.term.isSome = true) ∨
    ∃ r k i after b fault,
      ComesTo s { name := name, params := params } (leave qs g) r ((k, i) :: after) ∧
      b ∈ (leave qs g).blocks ∧ i ∈ b.code ∧ Blames (r.2.values.map (·.1)) params i fault ∧
      lowerGraph s place (leave qs g) = .error (.instr b.name i.id i.op fault)) := by
  have hwf := Graph.fault?_eq_none.mp hcheck
  have hregistered : ∀ q ∈ qs, q ∈ registeredPasses := by
    intro q hq
    simpa [registeredPasses] using hqs q hq
  have htrimmed := Pipeline.leave_trimmed hregistered hwf
  have hregular := (Program.regular_of_mem hread hg hwf).trimmed htrimmed
  have hnatural := (Program.natural_of_read hread g hg).trimmed hwf htrimmed
  refine ⟨fun r rest h => h.typed hregular, ?_⟩
  rcases lowerGraph_comesTo hregular hnatural hfun with ⟨r, hend, hok⟩ | hfails
  · refine .inl ⟨r, _, hend, hok, ?_, hend.all_end hregular hfun⟩
    apply List.getElem?_set_self
    exact Nat.lt_of_lt_of_le (List.getElem?_eq_some_iff.mp hfun).1 hend.length_functions
  · obtain ⟨r, k, i, after, b, fault, hstate, hb, hi, hblames, herror⟩ := hfails
    rw [hstate.params] at hblames
    exact .inr ⟨r, k, i, after, b, fault, hstate, hb, hi, hblames, herror⟩

/-- A function with a detour over an empty block and a block that no path comes to. -/
def detour : Graph := Outline.graph {
  name := "f"
  blocks := [
    ("in", [.arg 1, .cmp "lt" 0 0, .brif 1 1 2]),
    ("mid", [.br 2]),
    ("out", [.call "g" [1, 0], .ret [4]]),
    ("lost", [.br 3])]
  entry := some 0 }

def detourText : List UInt8 :=
  Text.bytesOf ("func f \x7b\nin:\n a = arg 1\n c = cmp lt a, a\n brif c mid out\n" ++
    "mid:\n br out\nout:\n r = call g c, a\n ret r\nlost:\n br lost\n\x7d\n")

/-- The function before it is lowered, with so many parameters. -/
def detourHead (params : Nat) : Symbols :=
  { functions := [{ name := "f", params := params }], defined := [("f", 0)] }

theorem lowering_detour_stays_in_bounds :
    Text.read "detour" detourText = .ok ⟨"detour", [detour]⟩ ∧ detour.fault? = none ∧
    (leave [unreachableBlockElimination, emptyBlockElimination] detour).order = [0, 2] ∧
    (∃ r s', ComesTo (detourHead 2) { name := "f", params := 2 }
        (leave [unreachableBlockElimination, emptyBlockElimination] detour) r [] ∧ r.2.Typed ∧
      lowerGraph (detourHead 2) 0
        (leave [unreachableBlockElimination, emptyBlockElimination] detour) = .ok s' ∧
      ∀ b ∈ r.2.function.blocks, b.term.isSome = true) ∧
    ∃ r k i after fault, ComesTo (detourHead 1) { name := "f", params := 1 } detour r
        ((k, i) :: after) ∧ r.2.Typed ∧ Blames (r.2.values.map (·.1)) 1 i fault ∧
      ∃ b ∈ detour.blocks, i ∈ b.code ∧
        LowerError.instr b.name i.id i.op fault = .instr "in" 0 .arg (.argumentOutOfRange 1) := by
  have hread : Text.read "detour" detourText = .ok ⟨"detour", [detour]⟩ := by decide +kernel
  have hcheck : detour.fault? = none := by decide +kernel
  have hmem : detour ∈ (Program.mk "detour" [detour]).functions := List.mem_cons_self
  refine ⟨hread, hcheck, by decide +kernel, ?_, ?_⟩
  · have hqs : ∀ q ∈ [unreachableBlockElimination, emptyBlockElimination],
        q = emptyBlockElimination ∨ q = unreachableBlockElimination := by simp
    have hfun : (detourHead 2).functions[0]? = some { name := "f", params := 2 } := rfl
    obtain ⟨htyped, hends⟩ :=
      lowering_a_checked_function_stays_in_bounds hread hmem hcheck hqs hfun
    rcases hends with ⟨r, s', hcomes, hok, -, hall⟩ | ⟨_, _, _, _, _, _, _, _, _, _, herror⟩
    · exact ⟨r, s', hcomes, htyped r [] hcomes, hok, hall⟩
    · obtain ⟨s', hok⟩ : ∃ s', lowerGraph (detourHead 2) 0
          (leave [unreachableBlockElimination, emptyBlockElimination] detour) = .ok s' := ⟨_, rfl⟩
      rw [herror] at hok
      cases hok
  · have hqs : ∀ q ∈ ([] : List (Pass Graph)),
        q = emptyBlockElimination ∨ q = unreachableBlockElimination := by simp
    have hfun : (detourHead 1).functions[0]? = some { name := "f", params := 1 } := rfl
    have hfails : lowerGraph (detourHead 1) 0 (leave [] detour) =
        .error (.instr "in" 0 .arg (.argumentOutOfRange 1)) := rfl
    obtain ⟨htyped, hends⟩ :=
      lowering_a_checked_function_stays_in_bounds hread hmem hcheck hqs hfun
    rcases hends with ⟨_, _, _, hok, -⟩ | ⟨r, k, i, after, b, fault, hcomes, hb, hi, hblames, herror⟩
    · rw [hfails] at hok
      cases hok
    · rw [hfails] at herror
      exact ⟨r, k, i, after, fault, hcomes, htyped r _ hcomes, hblames, b, hb, hi,
        (Except.error.inj herror).symm⟩

end Lower

end FlowGraph
