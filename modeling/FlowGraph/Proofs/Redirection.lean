import FlowGraph.Proofs.Edits
import FlowGraph.Proofs.Outline

/-!
Leading all edges of a block to another one. Each block that branches to the old
one has its terminator rewritten once, so the numbers that the rewrites give back
add up to the operands that named the old block. After the last rewrite nothing
names it, whoever branched to it is a predecessor of the new block, and no other
edge has moved.
-/

namespace FlowGraph

/-! ## Before and after -/

/-- An operand before and after the edges to `old` are led to `new`. -/
inductive Operand.Led (old new : BlockId) : Operand → Operand → Prop
  | value (v : ValueId) : Led old new (.value v) (.value v)
  | other (kind : UInt8) : Led old new (.other kind) (.other kind)
  | kept {b : BlockId} (h : b ≠ old) : Led old new (.block b) (.block b)
  | led : Led old new (.block old) (.block new)

/-- An instruction before and after: only operands change, each at its place. -/
structure Instr.Led (old new : BlockId) (i i' : Instr) : Prop where
  rest : i' = { i with args := i'.args }
  args : List.Forall₂ (Operand.Led old new) i.args i'.args

/-- A block before and after. -/
structure Block.Led (old new : BlockId) (b b' : Block) : Prop where
  rest : b' = { b with code := b'.code }
  code : List.Forall₂ (Instr.Led old new) b.code b'.code

section Led

variable (old new : BlockId)

theorem Operand.led_retarget (o : Operand) : o.Led old new (o.retarget (divert old new)) := by
  cases o with
  | value v => exact .value v
  | other kind => exact .other kind
  | block b =>
    show Led old new (.block b) (.block (if b = old then new else b))
    split
    · rename_i hb
      subst hb
      exact .led
    · rename_i hb
      exact .kept hb

theorem Instr.led_retarget (i : Instr) : i.Led old new (i.retarget (divert old new)) where
  rest := rfl
  args := List.forall₂_map_right_iff.mpr (List.forall₂_same.mpr fun o _ => o.led_retarget old new)

theorem Block.led_retarget (b : Block) : b.Led old new (b.retarget (divert old new)) where
  rest := rfl
  code := List.forall₂_map_right_iff.mpr (List.forall₂_same.mpr fun i _ => i.led_retarget old new)

end Led

/-- The operands that name a block are counted by the blocks that are named. -/
theorem Action.count_targets (a : Action) (b : BlockId) :
    a.targets.count b = a.args.count (.block b) := by
  unfold Action.targets
  rw [List.count_filterMap, List.count_eq_countP]
  apply List.countP_congr
  intro o _
  cases o <;> simp [Operand.block?]

/-- A block that ends in its only terminator branches there and nowhere else. -/
theorem Block.flatMap_targets {b : Block} (he : b.Ends) (ht : b.Tidy) :
    b.code.flatMap (·.targets) = b.targets := by
  obtain ⟨body, last, hc, hl, hbody⟩ := he
  have hnone : body.flatMap (·.targets) = [] := by
    rw [List.flatMap_eq_nil_iff]
    intro i hi
    exact ht i (by simp [hc, hi]) (hbody i hi)
  rw [Block.targets_eq hc hl, hc, List.flatMap_append, hnone, List.flatMap_singleton]
  rfl

namespace Graph

variable {g : Graph} {old new : BlockId}

/-! ## What the rewrites count -/

theorem countAt_eq (g : Graph) (old place : BlockId) :
    g.countAt old place = (g.successors place).count old := by
  unfold countAt successors
  cases g.block? place with
  | none => rfl
  | some b =>
    show ((b.terminator?.map _).getD 0) = (b.targets).count old
    unfold Block.targets
    cases b.terminator? <;> rfl

/-- A rewrite of one block does not change where another one branches to. -/
theorem successors_redirectFrom {p q : BlockId} (h : q ≠ p) :
    (g.redirectFrom old new p).successors q = g.successors q := by
  unfold successors redirectFrom
  rw [block?_modifyBlock, if_neg h]

/-- Each block is rewritten once, so it counts what it counted at the start. -/
theorem foldl_redirectNext {ps : List BlockId} (hn : ps.Nodup) (n : Nat) :
    ps.foldl (redirectNext old new) (g, n) =
      (ps.foldl (fun g p => g.redirectFrom old new p) g,
        n + (ps.flatMap g.successors).count old) := by
  induction ps generalizing g n with
  | nil => rfl
  | cons p ps ih =>
    obtain ⟨hp, hn⟩ := List.nodup_cons.mp hn
    have hsame : ps.flatMap (g.redirectFrom old new p).successors = ps.flatMap g.successors := by
      apply List.flatMap_congr
      intro q hq
      apply successors_redirectFrom
      rintro rfl
      exact hp hq
    rw [List.foldl_cons, redirectNext, ih hn, List.foldl_cons, hsame, countAt_eq, List.flatMap_cons,
      List.count_append, Nat.add_assoc]

theorem WellFormed.flatMap_targets (h : g.WellFormed) :
    g.instrs.flatMap (·.targets) = g.order.flatMap g.successors := by
  unfold instrs blocks
  rw [List.filterMap_eq_flatMap_toList, List.flatMap_assoc, List.flatMap_assoc]
  apply List.flatMap_congr
  intro x hx
  obtain ⟨b, hb, hfits⟩ := h.block x hx
  rw [successors_eq hb, hb, Option.toList_some, List.flatMap_singleton,
    Block.flatMap_targets hfits.ends hfits.tidy]

/-- Who does not branch to a block counts nothing for it. -/
theorem count_predecessors (g : Graph) (old : BlockId) :
    ((g.predecessors old).flatMap g.successors).count old =
      (g.order.flatMap g.successors).count old := by
  unfold predecessors
  induction g.order with
  | nil => rfl
  | cons x order ih =>
    rw [List.flatMap_cons, List.count_append, ← ih]
    by_cases hx : old ∈ g.successors x
    · rw [List.filter_cons_of_pos (by simpa using hx), List.flatMap_cons, List.count_append]
    · rw [List.filter_cons_of_neg (by simpa using hx), List.count_eq_zero.mpr hx, Nat.zero_add]

/-- The rewrites count the operands that name the old block. -/
theorem WellFormed.redirectCounting_eq (h : g.WellFormed) (old new : BlockId) :
    g.redirectCounting old new =
      (g.redirect old new, (g.instrs.flatMap (·.args)).count (.block old)) := by
  have hn : (g.predecessors old).Nodup := h.nodup.filter _
  unfold redirectCounting
  rw [foldl_redirectNext hn, count_predecessors, ← h.flatMap_targets, Nat.zero_add,
    List.count_flatMap, List.count_flatMap]
  simp only [Function.comp_def, Action.count_targets]
  rfl

/-! ## Edges after the rewrites -/

theorem WellFormed.successors_redirect (h : g.WellFormed) {x : BlockId} (hx : x ∈ g.order) :
    (g.redirect old new).successors x = (g.successors x).map (divert old new) := by
  obtain ⟨b, hb, hfits⟩ := h.block x hx
  have hb' : (g.redirect old new).block? x = some (b.retarget (divert old new)) := by
    rw [h.redirect_eq, block?_retarget, if_pos hx, hb]
    rfl
  rw [successors_eq hb', successors_eq hb, Block.retarget_targets hfits.ends]

theorem WellFormed.order_redirect (h : g.WellFormed) (old new : BlockId) :
    (g.redirect old new).order = g.order := by
  rw [h.redirect_eq]
  rfl

/-- A block has the predecessors whose edges lead to it after they were diverted. -/
theorem WellFormed.predecessors_redirect (h : g.WellFormed) (old new x : BlockId) :
    (g.redirect old new).predecessors x =
      g.order.filter (fun p => ∃ s ∈ g.successors p, divert old new s = x) := by
  unfold predecessors
  rw [h.order_redirect]
  apply List.filter_congr
  intro p hp
  rw [h.successors_redirect hp]
  simp

theorem divert_ne_old (hne : old ≠ new) (s : BlockId) : divert old new s ≠ old := by
  unfold divert
  split
  · exact hne.symm
  · assumption

theorem divert_eq_new {s : BlockId} : divert old new s = new ↔ s = old ∨ s = new := by
  unfold divert
  split <;> simp [*]

theorem divert_eq_other {s x : BlockId} (hold : x ≠ old) (hnew : x ≠ new) :
    divert old new s = x ↔ s = x := by
  unfold divert
  split
  · rename_i hs
    subst hs
    simp [hold.symm, hnew.symm]
  · rfl

theorem WellFormed.unnamed_redirect (h : g.WellFormed) (hne : old ≠ new) {i : Instr}
    (hi : i ∈ (g.redirect old new).instrs) : old ∉ i.targets := by
  rw [h.redirect_eq] at hi
  obtain ⟨x, hx, b', hb', hi⟩ := mem_instrs.mp hi
  have hx : x ∈ g.order := hx
  rw [block?_retarget, if_pos hx] at hb'
  obtain ⟨b, -, rfl⟩ := Option.map_eq_some_iff.mp hb'
  obtain ⟨j, -, rfl⟩ := List.mem_map.mp hi
  rw [Instr.retarget_targets, List.mem_map]
  rintro ⟨s, -, hs⟩
  exact divert_ne_old hne s hs

/-- In a graph that passes the check, rewrite the terminator of each block that branches to
`old`, so that it branches to `new`. Then no instruction names `old` and it has no predecessor.
Those of `new` are, in order and once each, the blocks that were predecessors of either, and
those of any other block are as they were. The rewrites give back, in all, the number of operands
that named `old`. Every instruction keeps its operands at their places, but for those that named
`old`, and all else is as it was, so the check passes again if `new` is listed. -/
theorem rewriting_all_branches_to_a_block_moves_its_edges (hcheck : g.fault? = none)
    (hne : old ≠ new) {g' : Graph} {n : Nat} (hrun : g.redirectCounting old new = (g', n)) :
    g' = g.redirect old new ∧
    g'.referencedBy? old = none ∧ g'.predecessors old = [] ∧
    g'.predecessors new =
      g.order.filter (fun p => p ∈ g.predecessors old ∨ p ∈ g.predecessors new) ∧
    (g'.predecessors new).Nodup ∧
    (∀ x, x ≠ old → x ≠ new → g'.predecessors x = g.predecessors x) ∧
    n = (g.instrs.flatMap (·.args)).count (.block old) ∧
    g' = { g with slots := g'.slots } ∧
    (∀ x ∈ g.order, ∃ b b', g.block? x = some b ∧ g'.block? x = some b' ∧ b.Led old new b') ∧
    (∀ x, x ∉ g.order → g'.block? x = g.block? x) ∧
    (new ∈ g.order → g'.fault? = none) := by
  have hg := fault?_eq_none.mp hcheck
  rw [hg.redirectCounting_eq] at hrun
  cases hrun
  have hmoved := hg.redirect_eq old new
  refine ⟨rfl, ?_, ?_, ?_, ?_, ?_, rfl, ?_, ?_, ?_, ?_⟩
  · unfold referencedBy?
    rw [List.find?_eq_none]
    intro i hi
    simpa using hg.unnamed_redirect hne hi
  · rw [hg.predecessors_redirect, List.filter_eq_nil_iff]
    simp [divert_ne_old hne]
  · rw [hg.predecessors_redirect]
    apply List.filter_congr
    intro p hp
    simp [predecessors, hp, divert_eq_new, and_or_left, exists_or]
  · exact (hg.order_redirect old new ▸ hg.nodup).filter _
  · intro x hold hnew
    rw [hg.predecessors_redirect]
    simp [predecessors, divert_eq_other hold hnew]
  · rw [hmoved]
    rfl
  · intro x hx
    obtain ⟨b, hb, -⟩ := hg.block x hx
    refine ⟨b, _, hb, ?_, b.led_retarget old new⟩
    rw [hmoved, block?_retarget, if_pos hx, hb]
    rfl
  · intro x hx
    rw [hmoved, block?_retarget, if_neg hx]
  · intro hnew
    rw [hmoved]
    refine fault?_eq_none.mpr (hg.retarget fun s hs => ?_)
    unfold divert
    split
    · exact hnew
    · exact hs

/-- A graph where both arms of a branch lead to a block, which also leads to itself. A value has
the number of that block. -/
def crossing : Graph := Outline.graph {
  name := "crossing"
  blocks := [
    ("in", [.arg 0, .const 7, .brif 1 1 1]),
    ("old", [.binary .add 0 1, .brif 3 1 2]),
    ("new", [.brif 1 3 1]),
    ("out", [.ret [1]]),
    ("side", [.br 2])]
  entry := some 0 }

theorem rewriting_all_branches_of_crossing_moves_four_edges :
    crossing.fault? = none ∧ crossing.predecessors 1 = [0, 1, 2] ∧
      crossing.predecessors 2 = [1, 4] ∧
      ∃ g', crossing.redirectCounting 1 2 = (g', 4) ∧ g'.referencedBy? 1 = none ∧
        g'.predecessors 1 = [] ∧ g'.predecessors 2 = [0, 1, 2, 4] ∧ g'.predecessors 3 = [2] ∧
        g'.fault? = none := by
  have hcheck : crossing.fault? = none := by decide +kernel
  have hrun : crossing.redirectCounting 1 2 = (crossing.redirect 1 2, 4) := by decide +kernel
  obtain ⟨-, hnone, hold, hnew, -, hother, -, -, -, -, hpass⟩ :=
    rewriting_all_branches_to_a_block_moves_its_edges hcheck (by decide) hrun
  refine ⟨hcheck, by decide +kernel, by decide +kernel, _, hrun, hnone, hold, ?_, ?_,
    hpass (by decide +kernel)⟩
  · rw [hnew]
    decide +kernel
  · rw [hother 3 (by decide) (by decide)]
    decide +kernel

end Graph

end FlowGraph
