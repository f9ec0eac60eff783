import FlowGraph.Proofs.WellFormed

/-!
What the check of a graph decides, said without the check. A lawful graph
lists its blocks once each, every block ends where its only terminator stands,
and every instruction has the operands of its operation. The check finds no
fault in the lawful graphs, and one in every other graph.
-/

namespace FlowGraph

/-! ## Lawful graphs -/

/-- An instruction as it has to be in the listed block `id`. -/
structure Instr.Lawful (i : Instr) (id : BlockId) (order : List BlockId) : Prop where
  own : i.block = id
  known : i.op ∈ Op.known
  -- its operands are values and blocks
  plain : ∀ o ∈ i.args, (∃ v, o = .value v) ∨ ∃ t, o = .block t
  -- only branches name blocks, and all that they name are listed
  branches : ∀ t, .block t ∈ i.args → (i.op = .br ∨ i.op = .brif) ∧ t ∈ order
  jump : i.op = .br → i.targets.length = 1 ∧ i.values = []
  choice : i.op = .brif → ∃ c yes no, i.args = [.value c, .block yes, .block no]
  leave : i.op = .ret → i.values.length ≤ 1

/-- A block as it has to be in the slot of the listed number `id`. -/
structure Block.Lawful (b : Block) (id : BlockId) (order : List BlockId) : Prop where
  number : b.id = id
  holder : b.owner = .holder
  nonempty : b.code ≠ []
  -- the last instruction ends a block, and no other does
  ends : ∀ n i, b.code[n]? = some i → (i.isTerminator = true ↔ n + 1 = b.code.length)
  instrs : ∀ i ∈ b.code, i.Lawful id order

/-- A graph as it has to be. -/
structure Graph.Lawful (g : Graph) : Prop where
  nonempty : g.order ≠ []
  nodup : g.order.Nodup
  block : ∀ id ∈ g.order, ∃ b, g.block? id = some b ∧ b.Lawful id g.order
  entry : ∃ e ∈ g.order, g.entry = some e

/-! ## Operands -/

theorem Op.mem_known {o : Op} : o ∈ Op.known ↔ o.isKnown = true := by
  cases o <;> simp [Op.known, Op.isKnown]

theorem Instr.Lawful.noOther {i : Instr} {id : BlockId} {order : List BlockId}
    (h : i.Lawful id order) (k : UInt8) : .other k ∉ i.args := by
  intro hk
  rcases h.plain _ hk with ⟨v, hv⟩ | ⟨t, ht⟩
  · cases hv
  · cases ht

/-- An operation that is no branch names no block. -/
theorem Instr.Lawful.values {i : Instr} {id : BlockId} {order : List BlockId}
    (h : i.Lawful id order) (hbr : i.op ≠ .br) (hbrif : i.op ≠ .brif) :
    ∃ vs : List ValueId, i.args = vs.map .value := by
  apply args_eq_values h.noOther
  rw [List.eq_nil_iff_forall_not_mem]
  intro t ht
  rcases (h.branches t (Action.mem_targets.mp ht)).1 with hop | hop
  · exact hbr hop
  · exact hbrif hop

theorem Instr.Lawful.fits {i : Instr} {id : BlockId} {order : List BlockId}
    (h : i.Lawful id order) : i.Fits := by
  have hknown := Op.mem_known.mp h.known
  unfold Action.Fits
  cases hop : i.op with
  | br =>
    obtain ⟨hone, hnone⟩ := h.jump hop
    exact args_eq_block h.noOther (by simpa [Action.values] using hnone) hone
  | brif => exact h.choice hop
  | ret =>
    obtain ⟨vs, hvs⟩ := h.values (by simp [hop]) (by simp [hop])
    have hle := h.leave hop
    unfold Action.values at hle
    rw [hvs, filterMap_value?_values] at hle
    rcases vs with _ | ⟨v, _ | ⟨w, vs⟩⟩
    · exact .inl hvs
    · exact .inr ⟨v, hvs⟩
    · simp at hle
  | unknown c => simp [hop, Op.isKnown] at hknown
  | _ => exact h.values (by simp [hop]) (by simp [hop])

theorem Instr.lawful_of_fits {i : Instr} {id : BlockId} {order : List BlockId} (hown : i.block = id)
    (hfits : i.Fits) (hin : ∀ t ∈ i.targets, t ∈ order) : i.Lawful id order where
  own := hown
  known := Op.mem_known.mpr hfits.known
  plain := by
    intro o ho
    cases o with
    | value v => exact .inl ⟨v, rfl⟩
    | block t => exact .inr ⟨t, rfl⟩
    | other k => exact absurd ho (hfits.plain k)
  branches := by
    intro t ht
    have htarget := Action.mem_targets.mpr ht
    refine ⟨?_, hin t htarget⟩
    unfold Action.Fits at hfits
    split at hfits
    · exact .inl ‹_›
    · exact .inr ‹_›
    · rcases hfits with hargs | ⟨v, hargs⟩ <;> simp [hargs] at ht
    · cases hfits
    · obtain ⟨vs, hargs⟩ := hfits
      simp [hargs] at ht
  jump := by
    intro hop
    obtain ⟨t, ht⟩ := hfits.br_args hop
    simp [Action.targets, Action.values, ht, Operand.block?, Operand.value?]
  choice := hfits.brif_args
  leave := by
    intro hop
    rcases hfits.ret_args hop with hargs | ⟨v, hargs⟩ <;>
      simp [Action.values, hargs, Operand.value?]

/-! ## Blocks -/

/-- A block ends in its only terminator when that is where its code ends. -/
theorem Block.ends_iff {b : Block} : b.Ends ↔ b.code ≠ [] ∧
    ∀ n i, b.code[n]? = some i → (i.isTerminator = true ↔ n + 1 = b.code.length) := by
  constructor
  · rintro ⟨body, last, hcode, hlast, hbody⟩
    refine ⟨by simp [hcode], ?_⟩
    intro n i hi
    rw [hcode] at hi ⊢
    rw [List.length_append, List.length_singleton]
    rcases Nat.lt_or_ge n body.length with hlt | hge
    · rw [List.getElem?_append_left hlt] at hi
      have := hbody i (List.mem_of_getElem? hi)
      simp only [this, Bool.false_eq_true, false_iff]
      omega
    · rw [List.getElem?_append_right hge] at hi
      obtain ⟨hzero, rfl⟩ := List.getElem?_eq_some_iff.mp hi
      have : n - body.length < 1 := hzero
      simp only [List.getElem_singleton, hlast, true_iff]
      omega
  · rintro ⟨hne, hends⟩
    have hcode := List.dropLast_append_getLast hne
    have hlength : b.code.dropLast.length + 1 = b.code.length := by
      have := List.length_pos_of_ne_nil hne
      rw [List.length_dropLast]
      omega
    refine ⟨b.code.dropLast, b.code.getLast hne, hcode.symm, ?_, ?_⟩
    · refine (hends b.code.dropLast.length _ ?_).mpr hlength
      conv_lhs => rw [← hcode]
      simp
    · intro i hi
      obtain ⟨n, hn⟩ := List.mem_iff_getElem?.mp hi
      have hlt := (List.getElem?_eq_some_iff.mp hn).1
      rw [Bool.eq_false_iff, ne_eq, hends n i (by rw [← hcode, List.getElem?_append_left hlt, hn])]
      omega

theorem Block.lawful_iff {b : Block} {id : BlockId} {order : List BlockId} :
    b.Lawful id order ↔ b.FitsIn id order := by
  constructor
  · intro h
    exact ⟨h.number, h.holder, Block.ends_iff.mpr ⟨h.nonempty, h.ends⟩, fun i hi => (h.instrs i hi).own,
      fun i hi => (h.instrs i hi).fits,
      fun i hi t ht => ((h.instrs i hi).branches t (Action.mem_targets.mp ht)).2⟩
  · intro h
    obtain ⟨hne, hends⟩ := Block.ends_iff.mp h.ends
    exact ⟨h.id_eq, h.holder, hne, hends,
      fun i hi => Instr.lawful_of_fits (h.own i hi) (h.fits i hi) (h.inside i hi)⟩

/-! ## The check -/

namespace Graph

/-- The check finds no fault in a graph exactly when the graph is lawful: it lists some blocks,
each once, the entry is one of them, and each listed slot holds a block that is as it has to
be. -/
theorem the_check_accepts_the_lawful_graphs (g : Graph) : g.fault? = none ↔ g.Lawful := by
  rw [fault?_eq_none]
  constructor
  · intro h
    obtain ⟨e, he, hentry⟩ := h.entry
    refine ⟨List.ne_nil_of_mem he, h.nodup, ?_, e, he, hentry⟩
    intro id hid
    obtain ⟨b, hb, hfits⟩ := h.block id hid
    exact ⟨b, hb, Block.lawful_iff.mpr hfits⟩
  · intro h
    refine ⟨h.nodup, ?_, h.entry⟩
    intro id hid
    obtain ⟨b, hb, hlawful⟩ := h.block id hid
    exact ⟨b, hb, Block.lawful_iff.mp hlawful⟩

end Graph

end FlowGraph
