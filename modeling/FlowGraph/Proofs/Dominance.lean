import FlowGraph.Proofs.OptimizedLowering
import FlowGraph.Proofs.Registers

/-!
Whether a register is filled on every path to where it is read. Lowering only
asks that a value is lowered before its uses, in one order of the blocks. That
is less than being given on every path. So a lowered function uses registers
as it should exactly when its graph uses values so.
-/

namespace FlowGraph

/-! ## Names along paths -/

/-- Code in blocks: where a run starts and where it can go on, and the names that each
position of a block gives and uses. -/
structure Flow (N V : Type) where
  start : N
  next : N → List N
  gives : N → Nat → V → Prop
  uses : N → Nat → V → Prop

namespace Flow

variable {N V N' V' : Type}

/-- A path from the start to a block: the blocks on it, the last one first. -/
inductive Path (F : Flow N V) : N → List N → Prop
  | start : Path F F.start [F.start]
  | step {a b : N} {l : List N} : Path F a l → b ∈ F.next a → Path F b (b :: l)

/-- A path comes to the block. -/
def Reached (F : Flow N V) (b : N) : Prop := ∃ l, F.Path b l

/-- The first block is on every path to the second. -/
def Dominates (F : Flow N V) (a b : N) : Prop := ∀ l, F.Path b l → a ∈ l

/-- The first position comes before the second on every path: it is earlier in the same
block, or in another block that is on every path to it. -/
def Before (F : Flow N V) (a : N) (n : Nat) (b : N) (m : Nat) : Prop :=
  a = b ∧ n < m ∨ a ≠ b ∧ F.Dominates a b

/-- What gives a name comes before each use of it that a path comes to. -/
def Dominated (F : Flow N V) : Prop :=
  ∀ b m v, F.Reached b → F.uses b m v → ∀ a n, F.gives a n v → F.Before a n b m

/-- Each name is given once. -/
def Single (F : Flow N V) : Prop :=
  ∀ v a n b m, F.gives a n v → F.gives b m v → a = b ∧ n = m

/-- A name that is used where a path comes to is given where one does, and earlier if in the
same block. -/
def Grounded (F : Flow N V) : Prop :=
  ∀ b m v, F.Reached b → F.uses b m v → ∃ a n, F.Reached a ∧ F.gives a n v ∧ (a = b → n < m)

theorem Path.start_mem {F : Flow N V} {b : N} {l : List N} (h : F.Path b l) : F.start ∈ l := by
  induction h with
  | start => exact List.mem_cons_self
  | step _ _ ih => exact List.mem_cons_of_mem _ ih

theorem Path.end_mem {F : Flow N V} {b : N} {l : List N} (h : F.Path b l) : b ∈ l := by
  cases h with
  | start => exact List.mem_cons_self
  | step _ _ => exact List.mem_cons_self

/-- The paths of one flow are those of another: each block has a place of its own, and at most
one block comes before them. -/
structure Follows (F : Flow N V) (F' : Flow N' V') (place : N → Option N') : Prop where
  start : ∃ k, place F.start = some k ∧
    (k = F'.start ∨ (∀ b, place b ≠ some F'.start) ∧ F'.next F'.start = [k])
  next : ∀ b k, place b = some k → (F.next b).map place = (F'.next k).map some
  apart : ∀ a b k, place a = some k → place b = some k → a = b

namespace Follows

variable {F : Flow N V} {F' : Flow N' V'} {place : N → Option N'} (h : Follows F F' place)

include h

theorem next_place {b t : N} {k : N'} (hk : place b = some k) (ht : t ∈ F.next b) :
    ∃ j ∈ F'.next k, place t = some j := by
  have hmem := List.mem_map_of_mem (f := place) ht
  rw [h.next b k hk] at hmem
  obtain ⟨j, hj, heq⟩ := List.mem_map.mp hmem
  exact ⟨j, hj, heq.symm⟩

theorem place_next {b : N} {k j : N'} (hk : place b = some k) (hj : j ∈ F'.next k) :
    ∃ t ∈ F.next b, place t = some j := by
  have hmem := List.mem_map_of_mem (f := some) hj
  rw [← h.next b k hk] at hmem
  exact List.mem_map.mp hmem

/-- A path goes through the places of its blocks. -/
theorem path {b : N} {l : List N} (hp : F.Path b l) :
    ∃ k ks, place b = some k ∧ F'.Path k ks ∧ ∀ j ∈ ks, ∀ a, place a = some j → a ∈ l := by
  induction hp with
  | start =>
    obtain ⟨k, hk, hstart⟩ := h.start
    have hown : ∀ a, place a = some k → a ∈ [F.start] := by
      intro a ha
      rw [h.apart a F.start k ha hk]
      exact List.mem_cons_self
    rcases hstart with rfl | ⟨hnone, hnext⟩
    · exact ⟨F'.start, _, hk, .start, by simpa using hown⟩
    · refine ⟨k, _, hk, .step .start (by simp [hnext]), ?_⟩
      simp only [List.forall_mem_cons]
      exact ⟨hown, fun a ha => absurd ha (hnone a), by simp⟩
  | @step a b l _ hb ih =>
    obtain ⟨k, ks, hk, hpath, hall⟩ := ih
    obtain ⟨j, hj, hbj⟩ := h.next_place hk hb
    refine ⟨j, j :: ks, hbj, .step hpath hj, List.forall_mem_cons.mpr ⟨?_, ?_⟩⟩
    · intro c hc
      rw [h.apart c b j hc hbj]
      exact List.mem_cons_self
    · exact fun i hi c hc => List.mem_cons_of_mem b (hall i hi c hc)

/-- A path through places is one of their blocks, but for what may come before them. -/
theorem path_back {k : N'} {ks : List N'} (hp : F'.Path k ks) :
    (k = F'.start ∧ ∀ b, place b ≠ some k) ∨
      ∃ b l, place b = some k ∧ F.Path b l ∧ ∀ a ∈ l, ∃ j ∈ ks, place a = some j := by
  obtain ⟨first, hfirst, hstart⟩ := h.start
  induction hp with
  | start =>
    rcases hstart with rfl | ⟨hnone, -⟩
    · exact .inr ⟨F.start, _, hfirst, .start, by simpa using hfirst⟩
    · exact .inl ⟨rfl, hnone⟩
  | @step i j ks _ hj ih =>
    right
    rcases ih with ⟨rfl, hnone⟩ | ⟨b, l, hb, hpath, hall⟩
    · rcases hstart with rfl | ⟨-, hnext⟩
      · exact absurd hfirst (hnone _)
      · rw [hnext, List.mem_singleton] at hj
        subst hj
        exact ⟨F.start, _, hfirst, .start, by simp [hfirst]⟩
    · obtain ⟨t, ht, htj⟩ := h.place_next hb hj
      refine ⟨t, t :: l, htj, .step hpath ht, List.forall_mem_cons.mpr ⟨?_, ?_⟩⟩
      · exact ⟨j, List.mem_cons_self, htj⟩
      · intro a ha
        obtain ⟨i', hi', hai⟩ := hall a ha
        exact ⟨i', List.mem_cons_of_mem j hi', hai⟩

theorem reached {b : N} {k : N'} (hk : place b = some k) (hb : F.Reached b) : F'.Reached k := by
  obtain ⟨l, hl⟩ := hb
  obtain ⟨k', ks, hk', hpath, -⟩ := h.path hl
  rw [hk] at hk'
  cases hk'
  exact ⟨ks, hpath⟩

/-- A block dominates another when its place does. -/
theorem dominates {a b : N} {j k : N'} (hj : place a = some j) (hk : place b = some k) :
    F.Dominates a b ↔ F'.Dominates j k := by
  constructor
  · intro hdom ks hpath
    rcases h.path_back hpath with ⟨-, hnone⟩ | ⟨b', l, hb', hl, hall⟩
    · exact absurd hk (hnone b)
    · obtain rfl := h.apart b' b k hb' hk
      obtain ⟨j', hj', haj⟩ := hall a (hdom l hl)
      rw [hj] at haj
      cases haj
      exact hj'
  · intro hdom l hl
    obtain ⟨k', ks, hk', hpath, hall⟩ := h.path hl
    rw [hk] at hk'
    cases hk'
    exact hall j (hdom ks hpath) a hj

end Follows

end Flow

/-! ## The flow of a graph -/

namespace Graph

/-- The instruction is at a position of a block. -/
def At (g : Graph) (b : BlockId) (n : Nat) (i : Instr) : Prop :=
  b ∈ g.order ∧ ∃ block, g.block? b = some block ∧ block.code[n]? = some i

/-- The flow of values: those that are computed are given, and all operands are used. -/
def flow (g : Graph) : Flow BlockId ValueId where
  start := g.entry.getD noBlock
  next := g.successors
  gives b n v := ∃ i, g.At b n i ∧ Lower.Computes i ∧ i.id = v
  uses b n v := ∃ i, g.At b n i ∧ v ∈ i.values

variable {g : Graph}

theorem WellFormed.reached_iff (hg : g.WellFormed) {b : BlockId} :
    g.flow.Reached b ↔ g.Reaches b := by
  obtain ⟨e, -, he⟩ := hg.entry
  have hstart : g.flow.start = e := by simp [flow, he]
  constructor
  · rintro ⟨l, hl⟩
    induction hl with
    | start =>
      rw [hstart]
      exact hg.reaches_entry he
    | step _ hb ih => exact .edge ih hb
  · intro hr
    induction hr with
    | entry he' _ =>
      rw [he] at he'
      cases he'
      rw [← hstart]
      exact ⟨_, .start⟩
    | edge _ hb ih =>
      obtain ⟨l, hl⟩ := ih
      exact ⟨_, .step hl hb⟩

/-- A block that alone leads to another is on every path to it. -/
theorem WellFormed.dominates_of_only (hg : g.WellFormed) {a b : BlockId} (hb : b ≠ g.flow.start)
    (honly : ∀ c ∈ g.order, b ∈ g.successors c → c = a) : g.flow.Dominates a b := by
  intro l hl
  cases hl with
  | start => exact absurd rfl hb
  | @step c _ l hl hnext =>
    obtain rfl := honly c (hg.mem_of_reaches (hg.reached_iff.mp ⟨l, hl⟩)) hnext
    exact List.mem_cons_of_mem b hl.end_mem

/-- Numbers of instructions are met at one position only. -/
theorem WellFormed.at_unique (hg : g.WellFormed) (hnodup : (g.instrs.map (·.id)).Nodup)
    {b b' : BlockId} {n n' : Nat} {i i' : Instr} (h : g.At b n i) (h' : g.At b' n' i')
    (hid : i.id = i'.id) : b = b' ∧ n = n' := by
  obtain ⟨hb, block, hblock, hi⟩ := h
  obtain ⟨hb', block', hblock', hi'⟩ := h'
  have hmap : g.instrs.map (·.id) = g.blocks.flatMap (fun b => b.code.map (·.id)) := by
    unfold instrs
    rw [List.map_flatMap]
  rw [hmap, List.nodup_flatMap] at hnodup
  obtain ⟨hown, hother⟩ := hnodup
  have hmem := mem_blocks.mpr ⟨b, hb, hblock⟩
  have hmem' := mem_blocks.mpr ⟨b', hb', hblock'⟩
  by_cases hsame : block = block'
  · subst hsame
    refine ⟨?_, ?_⟩
    · rw [← (hg.block_of_mem hb hblock).id_eq, (hg.block_of_mem hb' hblock').id_eq]
    · have hlt : n < (block.code.map (·.id)).length := by
        rw [List.length_map]
        exact (List.getElem?_eq_some_iff.mp hi).1
      apply (List.getElem?_inj hlt (hown block hmem)).mp
      rw [List.getElem?_map, List.getElem?_map, hi, hi', Option.map_some, Option.map_some, hid]
  · -- blocks have no number in common
    have : Std.Symm (Function.onFun List.Disjoint fun b : Block => b.code.map (·.id)) :=
      ⟨fun _ _ h => h.symm⟩
    have hdisjoint := hother.forall hmem hmem' hsame
    refine absurd (List.mem_map_of_mem (List.mem_of_getElem? hi')) (hdisjoint ?_)
    rw [← hid]
    exact List.mem_map_of_mem (List.mem_of_getElem? hi)

/-- What a block that a path comes to names is given in one, and earlier if in the same. -/
theorem WellFormed.given (hg : g.WellFormed) (hs : Lower.InScope g) {b : BlockId} {n : Nat}
    {i : Instr} {v : ValueId} (hr : g.Reaches b) (hi : g.At b n i) (hv : v ∈ i.values) :
    ∃ a m j, g.Reaches a ∧ g.At a m j ∧ j.isTerminator = false ∧ j.id = v ∧ (a = b → m < n) := by
  obtain ⟨e, hmem, he⟩ := hg.entry
  obtain ⟨l, hl, -⟩ := hg.lowerOrder?_eq hmem
  have hreach : ∀ x, x ∈ l ↔ g.Reaches x := fun x => hg.mem_visits he hl
  have hfresh := hl.fresh.1
  rw [hg.inScope_iff he hl, codeAt_append, Lower.scoped_append] at hs
  obtain ⟨hb, block, hblock, hi⟩ := hi
  -- the block comes after some others in the order of lowering
  obtain ⟨l₁, l₂, rfl⟩ := List.append_of_mem ((hreach b).mpr hr)
  obtain ⟨hn, rfl⟩ := List.getElem?_eq_some_iff.mp hi
  have hcode : block.code = block.code.take n ++ block.code[n] :: block.code.drop (n + 1) := by
    rw [List.cons_getElem_drop_succ, List.take_append_drop]
  have hscoped := hs.1
  rw [codeAt_append, codeAt_cons hblock, Lower.scoped_append, Lower.scoped_append, hcode,
    Lower.scoped_append] at hscoped
  have hknown := hscoped.2.1.2.1 v hv
  simp only [List.append_nil, List.mem_append, List.mem_flatMap, Instr.mem_gives] at hknown
  rcases hknown with ⟨j, hj, hends, hid⟩ | ⟨j, hj, hends, hid⟩
  · obtain ⟨m, hm⟩ := List.mem_iff_getElem?.mp hj
    rw [List.getElem?_take] at hm
    split at hm
    · rename_i hlt
      exact ⟨b, m, j, hr, ⟨hb, block, hblock, hm⟩, hends, hid, fun _ => hlt⟩
    · cases hm
  · unfold codeAt at hj
    obtain ⟨block', hblock', hj⟩ := List.mem_flatMap.mp hj
    obtain ⟨a, ha, hblock'⟩ := List.mem_filterMap.mp hblock'
    obtain ⟨m, hm⟩ := List.mem_iff_getElem?.mp hj
    have har : g.Reaches a := (hreach a).mp (List.mem_append_left _ ha)
    refine ⟨a, m, j, har, ⟨hg.mem_of_reaches har, block', hblock', hm⟩, hends, hid, ?_⟩
    rintro rfl
    exact absurd rfl ((List.nodup_append.mp hfresh).2.2 a ha a List.mem_cons_self)

end Graph

/-! ## The flow of a function -/

namespace Llvm.Function

/-- The flow of registers: those that are filled are given, and those that are read are used.
What ends a block is after its last instruction. -/
def flow (f : Function) : Flow Nat Nat where
  start := 0
  next k := ((((f.blocks[k]?).bind (·.term)).map (·.targets)).getD []).filterMap id
  gives k n x := ∃ b i, f.blocks[k]? = some b ∧ b.code[n]? = some i ∧ i.reg = x
  uses k n x := ∃ b, f.blocks[k]? = some b ∧ ((∃ i, b.code[n]? = some i ∧ x ∈ i.rhs.reads) ∨
    n = b.code.length ∧ ∃ t, b.term = some t ∧ x ∈ t.reads)

variable {f : Function} {k n n' x : Nat} {b : Block}

theorem gives_of_mem (hb : f.blocks[k]? = some b) (hx : x ∈ b.code.map (·.reg)) :
    ∃ n, f.flow.gives k n x := by
  obtain ⟨i, hi, rfl⟩ := List.mem_map.mp hx
  obtain ⟨n, hn⟩ := List.mem_iff_getElem?.mp hi
  exact ⟨n, b, i, hb, hn, rfl⟩

theorem exists_uses (hb : f.blocks[k]? = some b) :
    (∃ n, f.flow.uses k n x) ↔ x ∈ readsOf b.code b.term := by
  unfold readsOf
  rw [List.mem_append, List.mem_flatMap]
  constructor
  · rintro ⟨n, b', hb', huse⟩
    rw [hb] at hb'
    cases hb'
    rcases huse with ⟨i, hi, hx⟩ | ⟨-, t, ht, hx⟩
    · exact .inl ⟨i, List.mem_of_getElem? hi, hx⟩
    · exact .inr (by simpa [ht] using hx)
  · rintro (⟨i, hi, hx⟩ | hx)
    · obtain ⟨n, hn⟩ := List.mem_iff_getElem?.mp hi
      exact ⟨n, b, hb, .inl ⟨i, hn, hx⟩⟩
    · cases ht : b.term with
      | none => simp [ht] at hx
      | some t => exact ⟨_, b, hb, .inr ⟨rfl, t, ht, by simpa [ht] using hx⟩⟩

theorem Tidy.reg_lt (h : f.Tidy) (hb : f.blocks[k]? = some b) {i j : Instr}
    (hi : b.code[n]? = some i) (hj : b.code[n']? = some j) (hlt : n < n') : i.reg < j.reg := by
  obtain ⟨hn, rfl⟩ := List.getElem?_eq_some_iff.mp hi
  obtain ⟨hn', rfl⟩ := List.getElem?_eq_some_iff.mp hj
  exact List.pairwise_iff_getElem.mp (h.rising k b hb) n n' hn hn' hlt

/-- Each register is filled once. -/
theorem Tidy.single (h : f.Tidy) : f.flow.Single := by
  rintro x k n k' n' ⟨b, i, hb, hi, rfl⟩ ⟨b', j, hb', hj, hreg⟩
  obtain rfl := h.once k k' b b' hb hb' i (List.mem_of_getElem? hi) j (List.mem_of_getElem? hj)
    hreg.symm
  rw [hb] at hb'
  cases hb'
  refine ⟨rfl, ?_⟩
  rcases Nat.lt_trichotomy n n' with hlt | heq | hgt
  · have := h.reg_lt hb hi hj hlt
    omega
  · exact heq
  · have := h.reg_lt hb hj hi hgt
    omega

/-- In one block, a register is filled before it is read. -/
theorem Tidy.earlier (h : f.Tidy) (hu : f.flow.uses k n x) (hg : f.flow.gives k n' x) : n' < n := by
  obtain ⟨b, hb, huse⟩ := hu
  obtain ⟨b', j, hb', hj, rfl⟩ := hg
  rw [hb] at hb'
  cases hb'
  rcases huse with ⟨i, hi, hx⟩ | ⟨rfl, -⟩
  · have hbelow := h.below k b hb i (List.mem_of_getElem? hi) _ hx
    by_contra hle
    rcases Nat.eq_or_lt_of_le (Nat.le_of_not_lt hle) with rfl | hlt
    · rw [hi] at hj
      cases hj
      omega
    · have := h.reg_lt hb hi hj hlt
      omega
  · exact (List.getElem?_eq_some_iff.mp hj).1

end Llvm.Function

/-! ## Lowered functions -/

namespace Lower

variable {c : Names} {g : Graph} {f : Llvm.Function}

/-- A lowered function has the paths of its graph. -/
theorem Lowered.follows (h : Lowered c g f) : g.flow.Follows f.flow c.place := by
  refine ⟨?_, ?_, h.apart⟩
  · obtain ⟨e, k, block, he, -, hk, hstart⟩ := h.entry
    have hentry : g.flow.start = e := by simp [Graph.flow, he]
    rw [hentry]
    refine ⟨k, hk, ?_⟩
    rcases h.first e he with hzero | hnone
    · rw [hk] at hzero
      exact .inl (Option.some.inj hzero)
    · rcases hstart with rfl | ⟨b, hb, -, hterm⟩
      · exact .inl rfl
      · exact .inr ⟨hnone, by simp [Llvm.Function.flow, hb, hterm, Llvm.Term.targets]⟩
  · intro b k hk
    obtain ⟨block, b', hblock, hb', hlowers⟩ := h.block b k hk
    obtain ⟨i, t, ks, hlast, hends, hterm, htargets, hplaces⟩ := hlowers.targets
    have hsucc : g.flow.next b = i.targets := by
      show g.successors b = _
      rw [Graph.successors_eq hblock]
      unfold Block.targets Block.terminator?
      rw [hlast, Option.filter_some, if_pos hends]
      rfl
    have hnext : f.flow.next k = ks := by
      show ((((f.blocks[k]?).bind (·.term)).map (·.targets)).getD []).filterMap id = ks
      rw [hb', Option.bind_some, hterm, Option.map_some, htargets, Option.getD_some,
        List.filterMap_map]
      simp
    rw [hsucc, hnext, hplaces]

section Lowered

variable (h : Lowered c g f) (hg : Sane g) (hbare : ∀ i ∈ g.instrs, Bare i)

include h

/-- What comes before the blocks reads nothing. -/
theorem Lowered.not_uses {n x : Nat} (hnone : ∀ b, c.place b ≠ some 0) : ¬ f.flow.uses 0 n x := by
  obtain ⟨e, k, block, -, -, hk, hstart⟩ := h.entry
  rcases hstart with rfl | ⟨b, hb, hcode, hterm⟩
  · exact absurd hk (hnone e)
  · intro hu
    have := (Llvm.Function.exists_uses hb).mp ⟨n, hu⟩
    simp [Llvm.readsOf, hcode, hterm, Llvm.Term.reads] at this

/-- The result of an instruction is in the register that its block fills. -/
theorem Lowered.result {b : BlockId} {k n : Nat} {i : Instr} (hk : c.place b = some k)
    (hi : g.At b n i) (hends : i.isTerminator = false) :
    (Computes i ↔ ∃ x, c.InReg i.id x) ∧ ∀ x, c.InReg i.id x → ∃ m, f.flow.gives k m x := by
  obtain ⟨-, block, hblock, hi⟩ := hi
  obtain ⟨block', b', hblock', hb', hlowers⟩ := h.block b k hk
  rw [hblock] at hblock'
  cases hblock'
  obtain ⟨hcomputes, hfills⟩ := hlowers.result (List.mem_of_getElem? hi) hends
  exact ⟨hcomputes, fun x hx => Llvm.Function.gives_of_mem hb' (hfills x hx)⟩

include hbare

/-- What a block reads is filled in it or named by its instructions. -/
theorem Lowered.cases_of_uses {b : BlockId} {k n x : Nat} (hk : c.place b = some k)
    (hu : f.flow.uses k n x) :
    (∃ m, f.flow.gives k m x) ∨ ∃ m i v, g.At b m i ∧ v ∈ i.values ∧ c.InReg v x := by
  obtain ⟨block, b', hblock, hb', hlowers⟩ := h.block b k hk
  have hb := (h.placed b).mp (by simp [hk])
  have hall : ∀ i ∈ block.code, Bare i := fun i hi =>
    hbare i (Graph.mem_instrs.mpr ⟨b, hb, block, hblock, hi⟩)
  rcases hlowers.cases_of_read hall ((Llvm.Function.exists_uses hb').mp ⟨n, hu⟩) with
    hx | ⟨i, hi, v, hv, hx⟩
  · exact .inl (Llvm.Function.gives_of_mem hb' hx)
  · obtain ⟨m, hm⟩ := List.mem_iff_getElem?.mp hi
    exact .inr ⟨m, i, v, ⟨hb, block, hblock, hm⟩, hv, hx⟩

/-- What the instructions of a block name is read in it. -/
theorem Lowered.uses {b : BlockId} {k n x : Nat} {i : Instr} {v : ValueId}
    (hk : c.place b = some k) (hi : g.At b n i) (hv : v ∈ i.values) (hx : c.InReg v x) :
    ∃ m, f.flow.uses k m x := by
  obtain ⟨hb, block, hblock, hi⟩ := hi
  obtain ⟨block', b', hblock', hb', hlowers⟩ := h.block b k hk
  rw [hblock] at hblock'
  cases hblock'
  have hall : ∀ i ∈ block.code, Bare i := fun i hi =>
    hbare i (Graph.mem_instrs.mpr ⟨b, hb, block, hblock, hi⟩)
  rw [Llvm.Function.exists_uses hb']
  exact hlowers.mem_readsOf hall (List.mem_of_getElem? hi) hv hx

variable (hscope : InScope g)

include hg hscope

/-- A register that is read where a path comes to was filled in the same block, or holds the
value of an instruction where a path comes to. -/
theorem Lowered.source {k n x : Nat} (hr : f.flow.Reached k) (hu : f.flow.uses k n x) :
    ∃ b, c.place b = some k ∧ g.Reaches b ∧ ((∃ m, f.flow.gives k m x) ∨
      ∃ v m, g.flow.uses b m v ∧ ∃ a j k' n', g.flow.gives a j v ∧ g.Reaches a ∧
        c.place a = some k' ∧ f.flow.gives k' n' x) := by
  have hwf := hg.wellFormed
  obtain ⟨ks, hks⟩ := hr
  rcases h.follows.path_back hks with ⟨rfl, hnone⟩ | ⟨b, l, hk, hl, -⟩
  · exact absurd hu (h.not_uses hnone)
  · have hb := hwf.reached_iff.mp ⟨l, hl⟩
    refine ⟨b, hk, hb, ?_⟩
    rcases h.cases_of_uses hbare hk hu with hown | ⟨m, i, v, hi, hv, hx⟩
    · exact .inl hown
    · obtain ⟨a, j, i', ha, hi', hends, rfl, -⟩ := hwf.given hscope hb hi hv
      obtain ⟨k', hk'⟩ := Option.isSome_iff_exists.mp ((h.placed a).mpr (hwf.mem_of_reaches ha))
      obtain ⟨hcomputes, hgives⟩ := h.result hk' hi' hends
      obtain ⟨n', hn'⟩ := hgives x hx
      exact .inr ⟨i'.id, m, ⟨i, hi, hv⟩, a, j, k', n', ⟨i', hi', hcomputes.mpr ⟨x, hx⟩, rfl⟩, ha,
        hk', hn'⟩

variable (htidy : f.Tidy)

include htidy

/-- A register that is read where a path comes to is filled where one does. -/
theorem Lowered.grounded : f.flow.Grounded := by
  intro k n x hr hu
  obtain ⟨b, hk, hb, hsource⟩ := h.source hg hbare hscope hr hu
  rcases hsource with ⟨m, hm⟩ | ⟨v, m, -, a, j, k', n', -, ha, hk', hn'⟩
  · exact ⟨k, m, hr, hm, fun _ => htidy.earlier hu hm⟩
  · refine ⟨k', n', h.follows.reached hk' (hg.wellFormed.reached_iff.mpr ha), hn', ?_⟩
    rintro rfl
    exact htidy.earlier hu hn'

/-- Registers are filled on every path to their uses when values are given so. -/
theorem Lowered.dominated_iff : f.flow.Dominated ↔ g.flow.Dominated := by
  have hwf := hg.wellFormed
  constructor
  · intro hdom b m v hr hu a n hgives
    have hb := hwf.reached_iff.mp hr
    obtain ⟨i, hi, hv⟩ := hu
    obtain ⟨i', hi', hcomputes, rfl⟩ := hgives
    -- the value is given where a path comes to, which is where it is computed
    obtain ⟨a', n', j, ha', hj, -, hid, hbefore⟩ := hwf.given hscope hb hi hv
    obtain ⟨rfl, rfl⟩ := hwf.at_unique hg.nodup hj hi' hid
    by_cases hab : a' = b
    · exact .inl ⟨hab, hbefore hab⟩
    · obtain ⟨k, hk⟩ := Option.isSome_iff_exists.mp ((h.placed b).mpr (hwf.mem_of_reaches hb))
      obtain ⟨k', hk'⟩ := Option.isSome_iff_exists.mp ((h.placed a').mpr hi'.1)
      obtain ⟨hinreg, hfills⟩ := h.result hk' hi' hcomputes.1
      obtain ⟨x, hx⟩ := hinreg.mp hcomputes
      obtain ⟨n₁, hn₁⟩ := hfills x hx
      obtain ⟨m₁, hm₁⟩ := h.uses hbare hk hi hv hx
      rcases hdom k m₁ x (h.follows.reached hk hr) hm₁ k' n₁ hn₁ with ⟨rfl, -⟩ | ⟨-, hdominates⟩
      · exact absurd (h.apart a' b k' hk' hk) hab
      · exact .inr ⟨hab, (h.follows.dominates hk' hk).mpr hdominates⟩
  · intro hdom k n x hr hu k' n' hgives
    obtain ⟨b, hk, hb, hsource⟩ := h.source hg hbare hscope hr hu
    rcases hsource with ⟨m, hm⟩ | ⟨v, m, huse, a, j, k'', n'', hgive, ha, hk'', hn''⟩
    · obtain ⟨rfl, rfl⟩ := htidy.single x k' n' k m hgives hm
      exact .inl ⟨rfl, htidy.earlier hu hm⟩
    · obtain ⟨rfl, rfl⟩ := htidy.single x k' n' k'' n'' hgives hn''
      by_cases hkk : k' = k
      · subst hkk
        exact .inl ⟨rfl, htidy.earlier hu hgives⟩
      · rcases hdom b m v (hwf.reached_iff.mpr hb) huse a j hgive with ⟨rfl, -⟩ | ⟨-, hdominates⟩
        · rw [hk] at hk''
          exact absurd (Option.some.inj hk'').symm hkk
        · exact .inr ⟨hkk, (h.follows.dominates hk'' hk).mp hdominates⟩

end Lowered

end Lower

/-! ## Programs -/

theorem Action.Proper.bare {labels : Nat} {given : ValueId → Prop} {i : Instr}
    (h : i.toAction.Proper labels given) : Lower.Bare i := by
  unfold Lower.Bare
  generalize i.toAction = a at h ⊢
  intro hop
  cases h with
  | const | arg => rfl
  | binary hop' => rcases hop' with rfl | rfl | rfl <;> rcases hop with hop | hop <;> cases hop
  | cmp | call | br | brif | ret => rcases hop with hop | hop <;> cases hop

namespace Program

theorem bare_of_read {path : String} {text : List UInt8} {p : Program}
    (hread : Text.read path text = .ok p) :
    ∀ g ∈ p.functions, ∀ i ∈ g.instrs, Lower.Bare i := by
  intro g hg i hi
  obtain ⟨o, ho, rfl⟩ := (Text.wellRead_of_read hread).2.valid_of_mem hg
  obtain ⟨_, -, -, hproper⟩ := ho.proper_of_mem hi
  exact hproper.bare

/-- When a program that was read and passed the check is lowered, each register is filled once,
and one that is read where a path comes to is filled where a path comes to. Registers are
filled on every path to their uses in just those functions in which values are computed on
every path to theirs. -/
theorem lowered_registers_are_dominated_when_the_values_are {path : String} {text : List UInt8}
    {p : Program} (hread : Text.read path text = .ok p)
    (hcheck : ∀ g ∈ p.functions, g.fault? = none) {m : Llvm.Module} (hlower : p.lower = .ok m) :
    (∀ f ∈ m.functions, f.flow.Single ∧ f.flow.Grounded) ∧
      (∀ (i : Nat) g, p.functions[i]? = some g → ∃ f, m.functions[i]? = some f ∧
        (f.flow.Dominated ↔ g.flow.Dominated)) ∧
      ((∀ f ∈ m.functions, f.flow.Dominated) ↔ ∀ g ∈ p.functions, g.flow.Dominated) := by
  have hwf : ∀ g ∈ p.functions, g.WellFormed := fun g hg => Graph.fault?_eq_none.mp (hcheck g hg)
  obtain ⟨hsane, hnames⟩ := sane_of_wellRead (Text.wellRead_of_read hread).2 hcheck
  obtain ⟨hreg, -⟩ := regular_of_read hread hwf
  have hbare := bare_of_read hread
  have htidy := lower_tidy hreg hnames hbare hlower
  obtain ⟨-, hall, -⟩ := (lower_isOk hreg hnames).mp ⟨m, hlower⟩
  obtain ⟨callee, -, hfunctions⟩ := lower_spec hsane hnames hlower
  have heach : ∀ (i : Nat) g, p.functions[i]? = some g → ∃ f, m.functions[i]? = some f ∧
      f.flow.Grounded ∧ (f.flow.Dominated ↔ g.flow.Dominated) := by
    intro i g hg
    have hmem := List.mem_of_getElem? hg
    obtain ⟨f, c, hf, -, -, -, -, hlowered⟩ := hfunctions i g hg
    have hft := htidy f (List.mem_of_getElem? hf)
    exact ⟨f, hf, hlowered.grounded (hsane g hmem) (hbare g hmem) (hall g hmem).1 hft,
      hlowered.dominated_iff (hsane g hmem) (hbare g hmem) (hall g hmem).1 hft⟩
  -- a function is that of a graph, or has no blocks
  have hcases : ∀ f ∈ m.functions, (∃ (i : Nat) (g : Graph), p.functions[i]? = some g ∧
      m.functions[i]? = some f) ∨ ∀ k n x, ¬ f.flow.uses k n x := by
    intro f hf
    obtain ⟨i, hi⟩ := List.mem_iff_getElem?.mp hf
    rcases Nat.lt_or_ge i p.functions.length with hlt | hge
    · exact .inl ⟨i, _, List.getElem?_eq_getElem hlt, hi⟩
    · right
      rintro k n x ⟨b, hb, -⟩
      rw [lower_rest hreg hnames hlower hge hi] at hb
      cases hb
  refine ⟨?_, ?_, ?_, ?_⟩
  · intro f hf
    refine ⟨(htidy f hf).single, ?_⟩
    rcases hcases f hf with ⟨i, g, hg, hi⟩ | hnone
    · obtain ⟨f', hf', hgrounded, -⟩ := heach i g hg
      rw [hi] at hf'
      cases hf'
      exact hgrounded
    · exact fun k n x _ hu => absurd hu (hnone k n x)
  · intro i g hg
    obtain ⟨f, hf, -, hiff⟩ := heach i g hg
    exact ⟨f, hf, hiff⟩
  · intro h g hg
    obtain ⟨i, hi⟩ := List.mem_iff_getElem?.mp hg
    obtain ⟨f, hf, -, hiff⟩ := heach i g hi
    exact hiff.mp (h f (List.mem_of_getElem? hf))
  · intro h f hf
    rcases hcases f hf with ⟨i, g, hg, hi⟩ | hnone
    · obtain ⟨f', hf', -, hiff⟩ := heach i g hg
      rw [hi] at hf'
      cases hf'
      exact hiff.mpr (h g (List.mem_of_getElem? hg))
    · exact fun k n x _ hu => absurd hu (hnone k n x)

/-- A loop that uses a value from before it, and a block that uses one from the loop. -/
def winding : Graph := Outline.graph {
  name := "wind"
  blocks := [
    ("start", [.arg 0, .binary .add 0 0, .br 1]),
    ("loop", [.binary .mul 1 0, .cmp "lt" 3 0, .brif 4 1 2]),
    ("done", [.call "out" [3, 4], .binary .sub 6 1, .ret [7]])]
  entry := some 0 }

def windingText : List UInt8 :=
  Text.bytesOf ("func wind \x7b\nstart:\n n = arg 0\n m = add n n\n br loop\n" ++
    "loop:\n s = mul m n\n c = cmp lt s n\n brif c loop done\n" ++
    "done:\n t = call out s, c\n u = sub t m\n ret u\n\x7d")

/-- The values of the loop are computed on every path to their uses. -/
theorem winding_dominated : winding.flow.Dominated := by
  have hwf : winding.WellFormed := Graph.fault?_eq_none.mp (by decide +kernel)
  -- only the loop leads to the last block
  have hloop : winding.flow.Dominates 1 2 := hwf.dominates_of_only (by decide) (by decide +kernel)
  have hstart : ∀ b, winding.flow.Dominates 0 b := fun b l hl => hl.start_mem
  have hall : ∀ b ∈ winding.blocks, ∀ a ∈ winding.blocks, ∀ i ∈ b.code.zipIdx,
      ∀ j ∈ a.code.zipIdx, j.1.id ∈ i.1.values →
      a.id = b.id ∧ j.2 < i.2 ∨ a.id ≠ b.id ∧ (a.id = 0 ∨ a.id = 1 ∧ b.id = 2) := by decide +kernel
  rintro b m v - ⟨i, ⟨hb, block, hblock, hi⟩, hv⟩ a n ⟨j, ⟨ha, block', hblock', hj⟩, -, rfl⟩
  have hplace := hall block (Graph.mem_blocks.mpr ⟨b, hb, hblock⟩) block'
    (Graph.mem_blocks.mpr ⟨a, ha, hblock'⟩) (i, m) (List.mk_mem_zipIdx_iff_getElem?.mpr hi) (j, n)
    (List.mk_mem_zipIdx_iff_getElem?.mpr hj) hv
  rw [(hwf.block_of_mem hb hblock).id_eq, (hwf.block_of_mem ha hblock').id_eq] at hplace
  rcases hplace with hsame | ⟨hne, rfl | ⟨rfl, rfl⟩⟩
  · exact .inl hsame
  · exact .inr ⟨hne, hstart b⟩
  · exact .inr ⟨hne, hloop⟩

theorem lowered_registers_of_winding_are_dominated :
    Text.read "wind" windingText = .ok { path := "wind", functions := [winding] } ∧
      winding.fault? = none ∧ ∃ m : Llvm.Module,
        Program.lower { path := "wind", functions := [winding] } = .ok m ∧
        m.functions.length = 2 ∧ ∀ f ∈ m.functions, f.flow.Dominated := by
  have hread : Text.read "wind" windingText = .ok { path := "wind", functions := [winding] } := by
    decide +kernel
  have hcheck : winding.fault? = none := by decide +kernel
  obtain ⟨m, hm⟩ : ∃ m, Program.lower { path := "wind", functions := [winding] } = .ok m :=
    ⟨_, rfl⟩
  have hlength : m.functions.length = 2 := by
    cases hm
    rfl
  refine ⟨hread, hcheck, m, hm, hlength, ?_⟩
  apply (lowered_registers_are_dominated_when_the_values_are hread (by simpa using hcheck) hm).2.2.mpr
  simpa using winding_dominated

/-- A value that is computed on one of two ways to its use. -/
def oneWay : Program where
  path := "oneway"
  functions := [
    Outline.graph {
      name := "f"
      blocks := [
        ("entry", [.arg 0, .brif 0 1 2]),
        ("a", [.binary .add 0 0, .br 3]),
        ("b", [.br 3]),
        ("j", [.ret [2]])]
      entry := some 0 }]

def oneWayText : List UInt8 :=
  Text.bytesOf ("func f \x7b\nentry:\n c = arg 0\n brif c a b\na:\n v = add c c\n br j\n" ++
    "b:\n br j\nj:\n ret v\n\x7d")

/-- A program that is read, passes the check and is lowered need not fill a register on every
path to its use. -/
theorem a_register_need_not_be_filled_on_every_path :
    Text.read "oneway" oneWayText = .ok oneWay ∧ (∀ g ∈ oneWay.functions, g.fault? = none) ∧
      ∃ (m : Llvm.Module) (f : Llvm.Function), oneWay.lower = .ok m ∧ m.functions[0]? = some f ∧
        f.flow.Reached 3 ∧ f.flow.uses 3 0 1 ∧ f.flow.gives 1 0 1 ∧ ¬ f.flow.Before 1 0 3 0 := by
  refine ⟨by decide +kernel, by decide +kernel, ?_⟩
  obtain ⟨m, f, hm, hf, hblocks⟩ : ∃ m f, oneWay.lower = .ok m ∧ m.functions[0]? = some f ∧
      f.blocks = [
        ⟨"entry", [⟨0, .icmp .ne (.param 0) (.const 0)⟩], some (.condBr (.reg 0) (some 1) (some 2))⟩,
        ⟨"a", [⟨1, .arith .add (.param 0) (.param 0)⟩], some (.br (some 3))⟩,
        ⟨"b", [], some (.br (some 3))⟩,
        ⟨"j", [], some (.ret (.reg 1))⟩] := ⟨_, _, rfl, rfl, rfl⟩
  -- the way that does not compute the value
  have hpath : f.flow.Path 3 [3, 2, 0] := by
    have hfirst : 2 ∈ f.flow.next 0 := by simp [Llvm.Function.flow, hblocks, Llvm.Term.targets]
    have hsecond : 3 ∈ f.flow.next 2 := by simp [Llvm.Function.flow, hblocks, Llvm.Term.targets]
    exact .step (.step .start hfirst) hsecond
  refine ⟨m, f, hm, hf, ⟨_, hpath⟩, ?_, ?_, ?_⟩
  · exact ⟨_, by rw [hblocks]; rfl, .inr ⟨rfl, _, rfl, List.mem_cons_self⟩⟩
  · exact ⟨_, _, by rw [hblocks]; rfl, rfl, rfl⟩
  · rintro (⟨hsame, -⟩ | ⟨-, hdom⟩)
    · cases hsame
    · have := hdom _ hpath
      simp at this

end Program

end FlowGraph
