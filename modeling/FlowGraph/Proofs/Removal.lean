import FlowGraph.Proofs.Arena
import FlowGraph.Proofs.Edits

/-!
When a block is removed and what that leaves. A block that is handed out can be
written to by whoever holds it, so nothing is known of the code of a graph, of
the numbers in it or of the owners of its blocks. The order, the slots and the
entry still agree, and that is enough: the only block is the entry, so a block
is removed when it is there, is not the entry and no instruction names it.
-/

namespace FlowGraph

namespace Graph

/-! ## All that can be made of a new graph -/

/-- What calls make of a new graph. Between two calls anything may be written into a block,
the function may get another name, and numbers of instructions may be used up. -/
inductive Made : Graph → Prop
  | new (name : String) : Made { name := name }
  | addBlock {g : Graph} (name : String) (h : Made g) : Made (g.addBlock name)
  | append {g : Graph} (id : BlockId) (a : Action) (h : Made g) : Made (g.append id a)
  | setEntry {g g' : Graph} {id : BlockId} (h : Made g) (hset : g.setEntry id = .ok g') : Made g'
  | removeBlock {g g' : Graph} {id : BlockId} (h : Made g) (hremove : g.removeBlock id = .ok g') :
      Made g'
  | write {g : Graph} (id : BlockId) (f : Block → Block) (h : Made g) : Made (g.modifyBlock id f)
  | label {g : Graph} (name : String) (next : ValueId) (h : Made g) :
      Made { g with name := name, nextValue := next }

variable {g g' : Graph} {id : BlockId}

theorem Housed.setEntry (h : g.Housed) (hset : g.setEntry id = .ok g') : g'.Housed := by
  unfold Graph.setEntry at hset
  split at hset
  · rename_i hlive
    cases hset
    exact h.moveEntry hlive
  · cases hset

theorem Housed.removeBlock (h : g.Housed) (hremove : g.removeBlock id = .ok g') :
    g'.Housed := by
  obtain ⟨hfault, rfl⟩ := removeBlock_eq_ok.mp hremove
  obtain ⟨hlive, hentry, -, -⟩ := removalFault?_eq_none.mp hfault
  exact h.dropBlock hlive hentry

theorem Made.housed (h : g.Made) : g.Housed := by
  induction h with
  | new name => exact .new name
  | addBlock name _ ih => exact ih.addBlock name
  | append id a _ ih => exact ih.append id a
  | setEntry _ hset ih => exact ih.setEntry hset
  | removeBlock _ hremove ih => exact ih.removeBlock hremove
  | write id f _ ih => exact ih.modifyBlock id f
  | label name next _ ih => exact ⟨ih.nodup, ih.listed, ih.entry⟩

/-! ## What is asked and what is left -/

/-- An instruction of a block that is there has the block `id` as an operand. -/
def Names (g : Graph) (id : BlockId) : Prop :=
  ∃ b block, g.block? b = some block ∧ ∃ i ∈ block.code, .block id ∈ i.args

theorem Housed.names_iff (h : g.Housed) : g.Names id ↔ ∃ i ∈ g.instrs, id ∈ i.targets := by
  constructor
  · rintro ⟨b, block, hblock, i, hi, hid⟩
    have hb : b ∈ g.order := (h.listed b).mpr (has_iff.mpr ⟨block, hblock⟩)
    exact ⟨i, mem_instrs.mpr ⟨b, hb, block, hblock, hi⟩, Action.mem_targets.mpr hid⟩
  · rintro ⟨i, hi, hid⟩
    obtain ⟨b, -, block, hblock, hi⟩ := mem_instrs.mp hi
    exact ⟨b, block, hblock, i, hi, Action.mem_targets.mp hid⟩

/-- A block that is there, is not the entry and is named nowhere is taken out, and no other is. -/
theorem Housed.removeBlock_eq_ok_iff (h : g.Housed) :
    g.removeBlock id = .ok g' ↔
      (g.has id = true ∧ g.entry ≠ some id ∧ ¬ g.Names id) ∧ g' = g.without [id] := by
  have hnames : ¬ g.Names id ↔ ∀ i ∈ g.instrs, id ∉ i.targets := by
    rw [h.names_iff]
    simp only [not_exists, not_and]
  constructor
  · intro hok
    obtain ⟨hfault, rfl⟩ := removeBlock_eq_ok.mp hok
    obtain ⟨hlive, hentry, -, href⟩ := removalFault?_eq_none.mp hfault
    exact ⟨⟨hlive, hentry, hnames.mpr href⟩,
      dropBlock_eq_without (lt_cap_of_has hlive).1 h.nodup⟩
  · rintro ⟨⟨hlive, hentry, hno⟩, rfl⟩
    -- there is a block, so there is an entry, and it is another one
    rcases h.entry with ⟨e, he, hl⟩ | ⟨-, hzero⟩
    · have hne : e ≠ id := by
        rintro rfl
        exact hentry he
      exact removeBlock_eq h.nodup ((h.listed id).mpr hlive) hlive he ((h.listed e).mpr hl) hne
        (hnames.mp hno)
    · have := lt_cap_of_has hlive
      omega

theorem successors_without {ids : List BlockId} {j : BlockId} (hj : j ∉ ids) :
    (g.without ids).successors j = g.successors j := by
  unfold successors
  rw [block?_without, if_neg hj]

/-- A block that is gone leads nowhere, and the others lead where they led. -/
theorem predecessors_without (g : Graph) (ids : List BlockId) (j : BlockId) :
    (g.without ids).predecessors j = (g.predecessors j).filter (· ∉ ids) := by
  have horder : (g.without ids).order = g.order.filter (· ∉ ids) := rfl
  unfold predecessors
  rw [horder, List.filter_filter, List.filter_filter]
  apply List.filter_congr
  intro b _
  by_cases hb : b ∈ ids
  · simp [hb]
  · simp [hb, successors_without hb]

theorem WellFormed.without_unnamed (h : g.WellFormed) (hentry : g.entry ≠ some id)
    (hno : ¬ g.Names id) : (g.without [id]).WellFormed := by
  apply h.without
  · intro e he hin
    rw [List.mem_singleton.mp hin] at he
    exact hentry he
  · intro b hb _ t ht hin
    rw [List.mem_singleton.mp hin] at ht
    obtain ⟨block, hblock, hfits⟩ := h.block b hb
    rw [successors_eq hblock] at ht
    obtain ⟨i, hi, hid⟩ := (Block.mem_targets hfits.ends hfits.tidy).mp ht
    exact hno ⟨b, block, hblock, i, hi, Action.mem_targets.mp hid⟩

/-- Whatever was made of a graph and written into it, a block is removed exactly when it is
there, is not the entry and is no operand of any instruction. When it is not removed, the graph
stays as it is. When it is, all other blocks stay as they are, in their order and with their
edges, but that the removed one no longer leads to them, and a graph that passed the check
passes it still. -/
theorem a_block_that_nothing_names_is_all_that_a_removal_takes (h : g.Made) (id : BlockId) :
    ((∃ g', g.removeBlock id = .ok g') ↔
      g.has id = true ∧ g.entry ≠ some id ∧ ¬ g.Names id) ∧
    (∀ v, g.removeBlock id = .error v → (Edit.removeBlock id).leaves? g = some g) ∧
    ∀ g', g.removeBlock id = .ok g' →
      (Edit.removeBlock id).leaves? g = some g' ∧
      g.CutTo (· ≠ id) g' ∧ g'.has id = false ∧ g'.order = g.order.filter (· ≠ id) ∧
      (∀ j, j ≠ id → g'.block? j = g.block? j ∧ g'.successors j = g.successors j ∧
        g'.predecessors j = (g.predecessors j).filter (· ≠ id)) ∧
      (g.fault? = none → g'.fault? = none) := by
  have hg := h.housed
  refine ⟨?_, fun v hv => by simp [Edit.leaves?, hv, Except.toOption], fun g' hok => ?_⟩
  · simp only [hg.removeBlock_eq_ok_iff, exists_and_left, exists_eq, and_true]
  · have hleaves : (Edit.removeBlock id).leaves? g = some g' := by
      simp [Edit.leaves?, hok, Except.toOption]
    obtain ⟨⟨hlive, hentry, hno⟩, rfl⟩ := hg.removeBlock_eq_ok_iff.mp hok
    have hlisted : ∀ b ∈ [id], b ∈ g.order := by
      simpa using (hg.listed id).mpr hlive
    refine ⟨hleaves, ?_, ?_, ?_, fun j hj => ⟨?_, ?_, ?_⟩, fun hfault => ?_⟩
    · simpa using cutTo_without hlisted
    · simp [has, block?_without]
    · simp [without]
    · simp [block?_without, hj]
    · exact successors_without (by simpa using hj)
    · simp [predecessors_without]
    · exact fault?_eq_none.mpr ((fault?_eq_none.mp hfault).without_unnamed hentry hno)

/-- A graph with a block that nothing names, one that names itself and one that is named by an
instruction that does not end a block. -/
def depot : Graph :=
  (((((Graph.addBlock { name := "depot" } "in").addBlock "out").addBlock "spare").addBlock
    "ring").addBlock "kept").append 0 { op := .const, args := [.block 4] }
    |>.append 0 (.br 1) |>.append 1 (.ret []) |>.append 2 (.br 1) |>.append 3 (.br 3)

theorem depot_made : depot.Made := by
  unfold depot
  repeat' first | apply Made.append | apply Made.addBlock
  exact .new "depot"

/-- Of its blocks only the one that nothing names is removed. -/
theorem a_removal_takes_the_spare_block_of_depot :
    depot.Made ∧
      (∃ g', depot.removeBlock 2 = .ok g' ∧ g'.order = [0, 1, 3, 4] ∧
        depot.predecessors 1 = [0, 2] ∧ g'.predecessors 1 = [0]) ∧
      ∀ id ∈ [-1, 0, 3, 4, 5], ¬ ∃ g', depot.removeBlock id = .ok g' := by
  have hall := a_block_that_nothing_names_is_all_that_a_removal_takes depot_made
  refine ⟨depot_made, ?_, ?_⟩
  · obtain ⟨-, -, hleft⟩ := hall 2
    have hok : depot.removeBlock 2 = .ok (depot.dropBlock 2) := by decide +kernel
    obtain ⟨-, -, -, horder, hothers, -⟩ := hleft _ hok
    obtain ⟨-, -, hpred⟩ := hothers 1 (by decide)
    exact ⟨_, hok, by rw [horder]; decide +kernel, by decide +kernel, by rw [hpred]; decide +kernel⟩
  · intro id hid hok
    obtain ⟨hlive, hentry, hno⟩ := (hall id).1.mp hok
    simp only [List.mem_cons, List.not_mem_nil, or_false] at hid
    rcases hid with rfl | rfl | rfl | rfl | rfl
    · exact absurd hlive (by decide +kernel)
    · exact absurd rfl hentry
    · exact hno ⟨3, _, rfl, _, List.mem_singleton.mpr rfl, by decide⟩
    · exact hno ⟨0, _, rfl, _, List.mem_cons_self, by decide⟩
    · exact absurd hlive (by decide +kernel)

end Graph

end FlowGraph
