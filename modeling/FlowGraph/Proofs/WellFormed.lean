import FlowGraph.Graph.Verify
import FlowGraph.Proofs.Graph

/-!
What the check of a graph decides. A graph without a fault is well formed:
its order lists live blocks once each, the entry is listed, and every block
ends in its only terminator and has operands that fit and edges that stay
inside.
-/

namespace FlowGraph

/-! ## Operands -/

/-- The operands fit the operation: a jump has one block, a branch a value and
two blocks, a return at most one value, and all else values only. -/
def Action.Fits (a : Action) : Prop :=
  match a.op with
  | .br => ∃ t, a.args = [.block t]
  | .brif => ∃ c yes no, a.args = [.value c, .block yes, .block no]
  | .ret => a.args = [] ∨ ∃ v, a.args = [.value v]
  | .unknown _ => False
  | _ => ∃ vs : List ValueId, a.args = vs.map .value

/-- The blocks and the values that an action names are its operands. -/
theorem Action.mem_targets {a : Action} {t : BlockId} : t ∈ a.targets ↔ .block t ∈ a.args := by
  unfold Action.targets
  rw [List.mem_filterMap]
  constructor
  · rintro ⟨o, ho, hb⟩
    cases o with
    | block b =>
      cases hb
      exact ho
    | value v => cases hb
    | other k => cases hb
  · intro h
    exact ⟨_, h, rfl⟩

theorem Action.mem_values {a : Action} {v : ValueId} : v ∈ a.values ↔ .value v ∈ a.args := by
  unfold Action.values
  rw [List.mem_filterMap]
  constructor
  · rintro ⟨o, ho, hv⟩
    cases o with
    | value w =>
      cases hv
      exact ho
    | block b => cases hv
    | other k => cases hv
  · intro h
    exact ⟨_, h, rfl⟩

def countOperand : Nat × Nat → Operand → Except UInt8 (Nat × Nat)
  | (v, b), .value _ => .ok (v + 1, b)
  | (v, b), .block _ => .ok (v, b + 1)
  | _, .other k => .error k

theorem Action.countOperands_eq (a : Action) :
    a.countOperands = a.args.foldlM countOperand (0, 0) := by
  unfold Action.countOperands
  congr 1
  funext s o
  cases o <;> rfl

/-- A count that ends has counted the values and the blocks, and met nothing else. -/
theorem foldlM_countOperand {args : List Operand} {v b v' b' : Nat}
    (h : args.foldlM countOperand (v, b) = .ok (v', b')) :
    (∀ k, .other k ∉ args) ∧ v' = v + (args.filterMap Operand.value?).length ∧
      b' = b + (args.filterMap Operand.block?).length := by
  induction args generalizing v b with
  | nil => cases h; simp
  | cons o args ih =>
    rw [List.foldlM_cons] at h
    cases o with
    | other k => cases h
    | value x =>
      obtain ⟨h1, h2, h3⟩ := ih (v := v + 1) (b := b) h
      refine ⟨by simpa using h1, ?_, ?_⟩
      · simp [Operand.value?, h2]; omega
      · rw [List.filterMap_cons_none rfl, h3]
    | block x =>
      obtain ⟨h1, h2, h3⟩ := ih (v := v) (b := b + 1) h
      refine ⟨by simpa using h1, ?_, ?_⟩
      · rw [List.filterMap_cons_none rfl, h2]
      · simp [Operand.block?, h3]; omega

/-- A count meets no end only at an operand of an unknown kind. -/
theorem foldlM_countOperand_ok {args : List Operand} (h : ∀ k, .other k ∉ args) (v b : Nat) :
    ∃ r, args.foldlM countOperand (v, b) = .ok r := by
  induction args generalizing v b with
  | nil => exact ⟨_, rfl⟩
  | cons o args ih =>
    have hr : ∀ k, .other k ∉ args := fun k hk => h k (List.mem_cons_of_mem _ hk)
    rw [List.foldlM_cons]
    cases o with
    | other k => exact absurd (List.mem_cons_self ..) (h k)
    | value x => exact ih hr (v + 1) b
    | block x => exact ih hr v (b + 1)

/-- Operands that are all values. -/
theorem args_eq_values {args : List Operand} (h : ∀ k, .other k ∉ args)
    (hb : args.filterMap Operand.block? = []) : ∃ vs : List ValueId, args = vs.map .value := by
  induction args with
  | nil => exact ⟨[], rfl⟩
  | cons o args ih =>
    cases o with
    | value v =>
      rw [List.filterMap_cons_none rfl] at hb
      obtain ⟨vs, hvs⟩ := ih (fun k hk => h k (List.mem_cons_of_mem _ hk)) hb
      exact ⟨v :: vs, by simp [hvs]⟩
    | block b => simp [Operand.block?] at hb
    | other k => exact absurd (List.mem_cons_self ..) (h k)

theorem filterMap_block?_values (vs : List ValueId) :
    (vs.map Operand.value).filterMap Operand.block? = [] := by
  simp [List.filterMap_map, Function.comp_def, Operand.block?]

theorem filterMap_value?_values (vs : List ValueId) :
    (vs.map Operand.value).filterMap Operand.value? = vs := by
  simp [List.filterMap_map, Function.comp_def, Operand.value?]

theorem other_notMem_values (vs : List ValueId) (k : UInt8) :
    Operand.other k ∉ vs.map Operand.value := by
  simp

/-- Operands that are one block. -/
theorem args_eq_block {args : List Operand} (h : ∀ k, .other k ∉ args)
    (hv : (args.filterMap Operand.value?).length = 0)
    (hb : (args.filterMap Operand.block?).length = 1) : ∃ t, args = [.block t] := by
  match args with
  | [] => simp at hb
  | .value v :: _ => simp [Operand.value?] at hv
  | .other k :: _ => exact absurd (List.mem_cons_self ..) (h k)
  | [.block t] => exact ⟨t, rfl⟩
  | .block _ :: .block _ :: _ => simp [Operand.block?] at hb
  | .block _ :: .value _ :: _ => simp [Operand.value?] at hv
  | .block _ :: .other k :: _ => exact absurd (by simp) (h k)

/-- Operands that are a value and two blocks. -/
theorem args_eq_choice {args : List Operand} (h : ∀ k, .other k ∉ args) (hl : args.length = 3)
    (hv : (args.head?.bind Operand.value?).isSome = true)
    (hb : (args.filterMap Operand.block?).length = 2) :
    ∃ c yes no, args = [.value c, .block yes, .block no] := by
  obtain ⟨x, y, z, rfl⟩ := List.length_eq_three.mp hl
  cases x with
  | value c =>
    cases y with
    | block yes =>
      cases z with
      | block no => exact ⟨c, yes, no, rfl⟩
      | value v => cases hb
      | other k => exact absurd (by simp) (h k)
    | value v =>
      -- one operand is left, which cannot be two blocks
      rw [List.filterMap_cons_none rfl, List.filterMap_cons_none rfl] at hb
      have := List.length_filterMap_le Operand.block? [z]
      simp only [List.length_singleton] at this
      omega
    | other k => exact absurd (by simp) (h k)
  | block b => simp [Operand.value?] at hv
  | other k => simp [Operand.value?] at hv

/-- The counts that fit an operation are those of operands that fit it. -/
theorem Action.operandsFit_iff {a : Action} (hk : a.op.isKnown = true)
    (hp : ∀ k, .other k ∉ a.args) :
    a.operandsFit a.values.length a.targets.length = true ↔ a.Fits := by
  unfold Action.operandsFit Action.Fits Action.values Action.targets
  generalize hargs : a.args = args at *
  cases hop : a.op with
  | unknown c => simp [hop, Op.isKnown] at hk
  | br =>
    simp only [Op.ending, Bool.and_eq_true, beq_iff_eq]
    constructor
    · rintro ⟨hv, hb⟩
      exact args_eq_block hp hv hb
    · rintro ⟨t, rfl⟩
      exact ⟨rfl, rfl⟩
  | brif =>
    simp only [Op.ending, Bool.and_eq_true, beq_iff_eq]
    constructor
    · rintro ⟨⟨hl, hv⟩, hb⟩
      exact args_eq_choice hp hl hv hb
    · rintro ⟨c, yes, no, rfl⟩
      exact ⟨⟨rfl, rfl⟩, rfl⟩
  | ret =>
    simp only [Op.ending, Bool.and_eq_true, beq_iff_eq, decide_eq_true_eq]
    constructor
    · rintro ⟨hv, hb⟩
      obtain ⟨vs, rfl⟩ := args_eq_values hp (List.length_eq_zero_iff.mp hb)
      rw [filterMap_value?_values] at hv
      rcases vs with _ | ⟨v, _ | ⟨w, vs⟩⟩
      · exact .inl rfl
      · exact .inr ⟨v, rfl⟩
      · simp at hv
    · rintro (rfl | ⟨v, rfl⟩)
      · exact ⟨by simp, rfl⟩
      · exact ⟨by simp [Operand.value?], rfl⟩
  | _ =>
    -- all others take values only
    simp only [Op.ending, beq_iff_eq, List.length_eq_zero_iff]
    constructor
    · intro hb
      exact args_eq_values hp hb
    · rintro ⟨vs, rfl⟩
      exact filterMap_block?_values vs

theorem Action.Fits.plain {a : Action} (h : a.Fits) (k : UInt8) : Operand.other k ∉ a.args := by
  unfold Action.Fits at h
  split at h
  · obtain ⟨t, ht⟩ := h; simp [ht]
  · obtain ⟨c, yes, no, ht⟩ := h; simp [ht]
  · rcases h with ht | ⟨v, ht⟩ <;> simp [ht]
  · cases h
  · obtain ⟨vs, ht⟩ := h; rw [ht]; exact other_notMem_values vs k

theorem Action.Fits.known {a : Action} (h : a.Fits) : a.op.isKnown = true := by
  unfold Action.Fits at h
  cases hop : a.op <;> simp [hop, Op.isKnown] at h ⊢

theorem Action.Fits.br_args {a : Action} (h : a.Fits) (hop : a.op = .br) :
    ∃ t, a.args = [.block t] := by
  unfold Action.Fits at h
  simpa [hop] using h

theorem Action.Fits.brif_args {a : Action} (h : a.Fits) (hop : a.op = .brif) :
    ∃ v yes no, a.args = [.value v, .block yes, .block no] := by
  unfold Action.Fits at h
  simpa [hop] using h

theorem Action.Fits.ret_args {a : Action} (h : a.Fits) (hop : a.op = .ret) :
    a.args = [] ∨ ∃ v, a.args = [.value v] := by
  unfold Action.Fits at h
  simpa [hop] using h

theorem Action.Fits.targets_ret {a : Action} (h : a.Fits) (hop : a.op = .ret) : a.targets = [] := by
  rcases h.ret_args hop with hargs | ⟨v, hargs⟩
  · rw [Action.targets, hargs]
    rfl
  · rw [Action.targets, hargs]
    rfl

/-- An action has no fault when its operands fit its operation. -/
theorem Action.fault?_eq_none {a : Action} : a.fault? = none ↔ a.Fits := by
  unfold Action.fault?
  rw [Action.countOperands_eq]
  by_cases hk : a.op.isKnown = true
  · simp only [hk, Bool.not_true, Bool.false_eq_true, if_false]
    split
    · rename_i k hcount
      simp only [reduceCtorEq, false_iff]
      intro hf
      obtain ⟨r, hr⟩ := foldlM_countOperand_ok hf.plain 0 0
      rw [hr] at hcount
      cases hcount
    · rename_i v b hcount
      obtain ⟨hp, hv, hb⟩ := foldlM_countOperand hcount
      have hfit := Action.operandsFit_iff hk hp
      simp only [Nat.zero_add] at hv hb
      unfold Action.values Action.targets at hfit
      rw [hv, hb]
      constructor
      · intro h
        split at h
        · rename_i hyes
          exact hfit.mp hyes
        · cases h
      · intro h
        simp [hfit.mpr h]
  · simp only [Bool.not_eq_true] at hk
    simp only [hk, Bool.not_false, if_true, reduceCtorEq, false_iff]
    intro hf
    rw [hf.known] at hk
    cases hk

/-- Only an action that ends a block names blocks. -/
theorem Action.Fits.targets_nil {a : Action} (h : a.Fits) (ht : a.isTerminator = false) :
    a.targets = [] := by
  unfold Action.Fits at h
  unfold Action.isTerminator Op.isTerminator at ht
  split at h
  · rename_i hop; simp [hop, Op.ending] at ht
  · rename_i hop; simp [hop, Op.ending] at ht
  · rename_i hop; simp [hop, Op.ending] at ht
  · cases h
  · obtain ⟨vs, hvs⟩ := h
    unfold Action.targets
    rw [hvs, filterMap_block?_values]

/-! ## Blocks -/

/-- A block taken by itself has no fault when it ends in its only terminator. -/
theorem Block.fault?_eq_none {b : Block} : b.fault? = none ↔ b.Ends := by
  unfold Block.fault?
  constructor
  · intro h
    split at h
    · cases h
    rename_i last hlast
    split at h
    · cases h
    rename_i hfind
    split at h
    · rename_i hl
      refine ⟨b.code.dropLast, last, ?_, hl, ?_⟩
      · exact (List.dropLast_append_getLast? last hlast).symm
      · intro i hi
        simpa using List.find?_eq_none.mp hfind i hi
    · cases h
  · rintro ⟨body, last, hc, hl, hbody⟩
    have hfind : body.find? (fun i => i.isTerminator) = none := by
      rw [List.find?_eq_none]
      intro i hi
      simp [hbody i hi]
    simp [hc, hl, hfind]

/-- What is in the listed block `id`: it says so, it ends in its only terminator,
and its instructions are its own, fit, and branch to listed blocks. -/
structure Block.FitsIn (b : Block) (id : BlockId) (order : List BlockId) : Prop where
  id_eq : b.id = id
  holder : b.owner = .holder
  ends : b.Ends
  own : ∀ i ∈ b.code, i.block = id
  fits : ∀ i ∈ b.code, i.Fits
  inside : ∀ i ∈ b.code, ∀ t ∈ i.targets, t ∈ order

theorem Block.FitsIn.tidy {b : Block} {id : BlockId} {order : List BlockId}
    (h : b.FitsIn id order) : b.Tidy :=
  fun i hi ht => (h.fits i hi).targets_nil ht

theorem Block.FitsIn.targets_inside {b : Block} {id : BlockId} {order : List BlockId}
    (h : b.FitsIn id order) : ∀ t ∈ b.targets, t ∈ order := by
  intro t ht
  obtain ⟨i, hi, hit⟩ := (Block.mem_targets h.ends h.tidy).mp ht
  exact h.inside i hi t hit

namespace Graph

theorem blockViolation?_eq_none {g : Graph} {b : Block} :
    g.blockViolation? b = none ↔ b.Ends := by
  unfold blockViolation?
  rw [Option.map_eq_none_iff, Block.fault?_eq_none]

theorem instrFault?_eq_none {g : Graph} {id : BlockId} {i : Instr} :
    g.instrFault? id i = none ↔ i.block = id ∧ i.Fits ∧ ∀ t ∈ i.targets, t ∈ g.order := by
  unfold instrFault?
  by_cases hb : i.block = id
  · simp only [hb, ne_eq, not_true, if_false, true_and]
    split
    · rename_i why hf
      simp only [reduceCtorEq, false_iff, not_and]
      intro hfit
      rw [Action.fault?_eq_none.mpr hfit] at hf
      cases hf
    · rename_i hf
      rw [Action.fault?_eq_none] at hf
      simp [hf]
  · simp [hb]

theorem liveFault?_eq_none {g : Graph} {id : BlockId} {b : Block} (hb : g.block? id = some b)
    (hid : b.id = id) : g.liveFault? id = none ↔ b.FitsIn id g.order := by
  unfold liveFault?
  simp only [hb, Option.bind_some]
  by_cases ho : b.owner = .holder
  · simp only [ho, ne_eq, not_true, if_false, Option.or_eq_none_iff, blockViolation?_eq_none,
      List.findSome?_eq_none_iff, instrFault?_eq_none]
    constructor
    · rintro ⟨he, hi⟩
      exact ⟨hid, ho, he, fun i h => (hi i h).1, fun i h => (hi i h).2.1, fun i h => (hi i h).2.2⟩
    · intro h
      exact ⟨h.ends, fun i hi => ⟨h.own i hi, h.fits i hi, h.inside i hi⟩⟩
  · simp only [ho, ne_eq, not_false_eq_true, if_true, reduceCtorEq, false_iff]
    intro h
    exact ho h.holder

theorem orderFault?_eq_none {g : Graph} {seen rest : List BlockId} :
    g.orderFault? seen rest = none ↔
      (∀ id ∈ rest, (g.block? id).map (·.id) = some id) ∧ rest.Nodup ∧ ∀ id ∈ rest, id ∉ seen := by
  induction rest generalizing seen with
  | nil => simp [orderFault?]
  | cons id rest ih =>
    unfold orderFault?
    by_cases hb : (g.block? id).map (·.id) = some id
    · by_cases hs : id ∈ seen
      · simp [hb, hs]
      · simp only [hb, hs, ne_eq, not_true, if_false, List.contains_eq_mem, decide_false,
          Bool.false_eq_true, ih, List.mem_cons, not_or, List.nodup_cons, forall_eq_or_imp]
        constructor
        · rintro ⟨h1, h2, h3⟩
          exact ⟨⟨trivial, h1⟩, ⟨fun hm => (h3 id hm).1 rfl, h2⟩, not_false, fun j hj => (h3 j hj).2⟩
        · rintro ⟨⟨-, h1⟩, ⟨h2, h3⟩, h4, h5⟩
          refine ⟨h1, h3, fun j hj => ⟨?_, h5 j hj⟩⟩
          rintro rfl
          exact h2 hj
    · simp only [hb, ne_eq, not_false_eq_true, if_true, reduceCtorEq, false_iff]
      intro h
      exact hb (h.1 id (List.mem_cons_self ..))

/-! ## The whole graph -/

/-- A graph is well formed: its order lists blocks that fit, once each, and the
entry is one of them. -/
structure WellFormed (g : Graph) : Prop where
  nodup : g.order.Nodup
  block : ∀ id ∈ g.order, ∃ b, g.block? id = some b ∧ b.FitsIn id g.order
  entry : ∃ e ∈ g.order, g.entry = some e

/-- The check finds no fault in the graphs that are well formed, and in no others. -/
theorem fault?_eq_none {g : Graph} : g.fault? = none ↔ g.WellFormed := by
  unfold fault?
  constructor
  · intro h
    split at h
    · cases h
    split at h
    · cases h
    rename_i horder
    split at h
    · cases h
    rename_i hentry
    obtain ⟨hlive, hnodup, -⟩ := orderFault?_eq_none.mp horder
    rw [List.findSome?_eq_none_iff] at h
    refine ⟨hnodup, ?_, ?_⟩
    · intro id hid
      obtain ⟨b, hb, hbid⟩ := Option.map_eq_some_iff.mp (hlive id hid)
      exact ⟨b, hb, (liveFault?_eq_none hb hbid).mp (h id hid)⟩
    · cases he : g.entry with
      | none => simp [he] at hentry
      | some e =>
        refine ⟨e, ?_, rfl⟩
        by_contra hm
        simp [he, Option.filter, hm] at hentry
  · rintro ⟨hnodup, hblock, e, he, hentry⟩
    have hne : g.order.isEmpty = false := by
      cases ho : g.order with
      | nil => simp [ho] at he
      | cons a l => rfl
    have horder : g.orderFault? [] g.order = none := by
      rw [orderFault?_eq_none]
      refine ⟨?_, hnodup, by simp⟩
      intro id hid
      obtain ⟨b, hb, hfits⟩ := hblock id hid
      simp [hb, hfits.id_eq]
    have hlive : g.order.findSome? g.liveFault? = none := by
      rw [List.findSome?_eq_none_iff]
      intro id hid
      obtain ⟨b, hb, hfits⟩ := hblock id hid
      exact (liveFault?_eq_none hb hfits.id_eq).mpr hfits
    simp [hne, horder, hentry, Option.filter, he, hlive]

theorem WellFormed.block_of_mem {g : Graph} (h : g.WellFormed) {id : BlockId} {b : Block}
    (hid : id ∈ g.order) (hb : g.block? id = some b) : b.FitsIn id g.order := by
  obtain ⟨b', hb', hf⟩ := h.block id hid
  rw [hb] at hb'
  cases hb'
  exact hf

theorem WellFormed.nonneg {g : Graph} (h : g.WellFormed) {id : BlockId} (hid : id ∈ g.order) :
    0 ≤ id := by
  obtain ⟨b, hb, -⟩ := h.block id hid
  exact nonneg_of_block? hb

theorem successors_eq {g : Graph} {id : BlockId} {b : Block} (hb : g.block? id = some b) :
    g.successors id = b.targets := by
  unfold successors
  rw [hb]
  rfl

theorem WellFormed.successors_inside {g : Graph} (h : g.WellFormed) {id t : BlockId}
    (hid : id ∈ g.order) (ht : t ∈ g.successors id) : t ∈ g.order := by
  obtain ⟨b, hb, hf⟩ := h.block id hid
  rw [successors_eq hb] at ht
  exact hf.targets_inside t ht

theorem mem_blocks {g : Graph} {b : Block} :
    b ∈ g.blocks ↔ ∃ id ∈ g.order, g.block? id = some b := by
  unfold blocks
  rw [List.mem_filterMap]

theorem WellFormed.map_id_filterMap {g : Graph} (hg : g.WellFormed) {l : List BlockId}
    (hl : ∀ x ∈ l, x ∈ g.order) : (l.filterMap g.block?).map (·.id) = l := by
  induction l with
  | nil => rfl
  | cons x l ih =>
    obtain ⟨b, hb, hfits⟩ := hg.block x (hl x List.mem_cons_self)
    rw [List.filterMap_cons_some hb, List.map_cons, hfits.id_eq,
      ih fun y hy => hl y (List.mem_cons_of_mem x hy)]

theorem WellFormed.blocks_ids {g : Graph} (h : g.WellFormed) : g.blocks.map (·.id) = g.order :=
  h.map_id_filterMap fun _ hx => hx

theorem WellFormed.map_block? {g : Graph} (hg : g.WellFormed) {l : List BlockId}
    (hl : ∀ x ∈ l, x ∈ g.order) : l.map g.block? = (l.filterMap g.block?).map some := by
  induction l with
  | nil => rfl
  | cons x l ih =>
    obtain ⟨b, hb, -⟩ := hg.block x (hl x List.mem_cons_self)
    rw [List.map_cons, List.filterMap_cons_some hb, List.map_cons, hb,
      ih fun y hy => hl y (List.mem_cons_of_mem x hy)]

theorem WellFormed.filter_blocks {g : Graph} (hg : g.WellFormed) (q : BlockId → Bool) :
    g.blocks.filter (fun b => q b.id) = (g.order.filter q).filterMap g.block? := by
  unfold blocks
  rw [List.filter_filterMap, List.filterMap_filter]
  refine List.filterMap_congr ?_
  intro x hx
  obtain ⟨b, hb, hfits⟩ := hg.block x hx
  rw [hb, Option.filter_some, hfits.id_eq]

theorem mem_instrs {g : Graph} {i : Instr} :
    i ∈ g.instrs ↔ ∃ id ∈ g.order, ∃ b, g.block? id = some b ∧ i ∈ b.code := by
  unfold instrs
  rw [List.mem_flatMap]
  constructor
  · rintro ⟨b, hb, hi⟩
    obtain ⟨id, hid, hb⟩ := mem_blocks.mp hb
    exact ⟨id, hid, b, hb, hi⟩
  · rintro ⟨id, hid, b, hb, hi⟩
    exact ⟨b, mem_blocks.mpr ⟨id, hid, hb⟩, hi⟩

/-- A block that an instruction names is listed. -/
theorem WellFormed.target_mem {g : Graph} (h : g.WellFormed) {i : Instr} (hi : i ∈ g.instrs)
    {b : BlockId} (hb : .block b ∈ i.args) : b ∈ g.order := by
  obtain ⟨id, hid, block, hblock, hi⟩ := mem_instrs.mp hi
  exact (h.block_of_mem hid hblock).inside i hi b (Action.mem_targets.mpr hb)

theorem malformedBlock?_eq_none {g : Graph} :
    g.malformedBlock? = none ↔ ∀ b ∈ g.blocks, b.fault? = none := by
  unfold malformedBlock?
  rw [List.findSome?_eq_none_iff]
  exact forall₂_congr fun b _ => Option.map_eq_none_iff

theorem malformedBlock?_ne_none {g : Graph} :
    g.malformedBlock? ≠ none ↔ ∃ b ∈ g.blocks, b.fault? ≠ none := by
  rw [ne_eq, malformedBlock?_eq_none]
  simp only [not_forall, exists_prop, ne_eq]

/-- What is told is the violation of the first block that is malformed. -/
theorem malformedBlock?_of_first {g : Graph} {earlier later : List Block} {b : Block}
    (hblocks : g.blocks = earlier ++ b :: later) (hearlier : ∀ c ∈ earlier, c.fault? = none)
    {v : Violation} (hb : g.blockViolation? b = some v) : g.malformedBlock? = some v := by
  have hnone : earlier.findSome? g.blockViolation? = none :=
    List.findSome?_eq_none_iff.mpr fun c hc => Option.map_eq_none_iff.mpr (hearlier c hc)
  unfold malformedBlock?
  rw [hblocks, List.findSome?_append, hnone, Option.none_or, List.findSome?_cons, hb]

/-- The passes first look for a block that is malformed by itself, and find none. -/
theorem WellFormed.malformedBlock? {g : Graph} (h : g.WellFormed) : g.malformedBlock? = none := by
  rw [malformedBlock?_eq_none]
  intro b hb
  obtain ⟨id, hid, hb⟩ := mem_blocks.mp hb
  exact Block.fault?_eq_none.mpr (h.block_of_mem hid hb).ends

end Graph

end FlowGraph
