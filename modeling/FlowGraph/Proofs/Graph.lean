import Mathlib.Data.List.Basic
import FlowGraph.Graph.Edges

/-!
A graph as what its slots show. Two graphs with the same fields and the same
live blocks are equal, so each edit is told by what it does to the look-up of
a block. Two whole edits stand beside the edits of one block: every branch
passed through a map of block numbers, and a list of blocks taken out.
-/

namespace FlowGraph

/-! ## Branches passed through a map -/

/-- The operand with its block passed through `f`. -/
def Operand.retarget (f : BlockId → BlockId) : Operand → Operand
  | block b => block (f b)
  | o => o

/-- The instruction with its blocks passed through `f`. -/
def Instr.retarget (f : BlockId → BlockId) (i : Instr) : Instr :=
  { i with args := i.args.map (Operand.retarget f) }

/-- The block with all blocks in its code passed through `f`. -/
def Block.retarget (f : BlockId → BlockId) (b : Block) : Block :=
  { b with code := b.code.map (Instr.retarget f) }

/-- The map that makes one block into another and keeps the rest. -/
def divert (old new t : BlockId) : BlockId := if t = old then new else t

theorem Operand.redirect_eq (old new : BlockId) :
    Operand.redirect old new = Operand.retarget (divert old new) := by
  funext o
  cases o <;> rfl

theorem Instr.redirect_eq (old new : BlockId) (i : Instr) :
    i.redirect old new = i.retarget (divert old new) := by
  unfold Instr.redirect Instr.retarget Action.redirect
  rw [Operand.redirect_eq]

theorem Operand.retarget_retarget (f g : BlockId → BlockId) (o : Operand) :
    (o.retarget f).retarget g = o.retarget (g ∘ f) := by
  cases o <;> rfl

theorem Instr.retarget_retarget (f g : BlockId → BlockId) (i : Instr) :
    (i.retarget f).retarget g = i.retarget (g ∘ f) := by
  unfold Instr.retarget
  simp [Operand.retarget_retarget, Function.comp_def]

theorem Block.retarget_retarget (f g : BlockId → BlockId) (b : Block) :
    (b.retarget f).retarget g = b.retarget (g ∘ f) := by
  unfold Block.retarget
  simp [Instr.retarget_retarget, Function.comp_def]

@[simp] theorem Instr.retarget_op (f : BlockId → BlockId) (i : Instr) :
    (i.retarget f).op = i.op := rfl

@[simp] theorem Instr.retarget_id (f : BlockId → BlockId) (i : Instr) :
    (i.retarget f).id = i.id := rfl

@[simp] theorem Instr.retarget_imm (f : BlockId → BlockId) (i : Instr) :
    (i.retarget f).imm = i.imm := rfl

@[simp] theorem Instr.retarget_sym (f : BlockId → BlockId) (i : Instr) :
    (i.retarget f).sym = i.sym := rfl

@[simp] theorem Instr.retarget_cond (f : BlockId → BlockId) (i : Instr) :
    (i.retarget f).cond = i.cond := rfl

@[simp] theorem Instr.retarget_targets (f : BlockId → BlockId) (i : Instr) :
    (i.retarget f).targets = i.targets.map f := by
  unfold Instr.retarget Action.targets
  simp only [List.filterMap_map, List.map_filterMap]
  congr 1
  funext o
  cases o <;> rfl

@[simp] theorem Instr.retarget_values (f : BlockId → BlockId) (i : Instr) :
    (i.retarget f).values = i.values := by
  unfold Instr.retarget Action.values
  simp only [List.filterMap_map]
  congr 1
  funext o
  cases o <;> rfl

/-- Only the blocks that an instruction names count. -/
theorem Instr.retarget_congr {f h : BlockId → BlockId} {i : Instr}
    (hfh : ∀ t ∈ i.targets, f t = h t) : i.retarget f = i.retarget h := by
  have hone : ∀ o ∈ i.args, o.retarget f = o.retarget h := by
    intro o ho
    cases o with
    | block b =>
      have hb : b ∈ i.targets := List.mem_filterMap.mpr ⟨_, ho, rfl⟩
      simp [Operand.retarget, hfh b hb]
    | value v => rfl
    | other k => rfl
  unfold Instr.retarget
  rw [List.map_congr_left hone]

theorem Block.retarget_congr {f h : BlockId → BlockId} {b : Block}
    (hfh : ∀ i ∈ b.code, ∀ t ∈ i.targets, f t = h t) : b.retarget f = b.retarget h := by
  have hone : ∀ i ∈ b.code, i.retarget f = i.retarget h :=
    fun i hi => Instr.retarget_congr (hfh i hi)
  unfold Block.retarget
  rw [List.map_congr_left hone]

theorem Instr.retarget_self (i : Instr) : i.retarget (fun t => t) = i := by
  have hop : ∀ o ∈ i.args, o.retarget (fun t => t) = o := fun o _ => by cases o <;> rfl
  unfold Instr.retarget
  rw [List.map_congr_left hop, List.map_id']

theorem Block.retarget_self (b : Block) : b.retarget (fun t => t) = b := by
  have hone : ∀ i ∈ b.code, i.retarget (fun t => t) = i := fun i _ => i.retarget_self
  unfold Block.retarget
  rw [List.map_congr_left hone, List.map_id']

/-- A map that keeps the blocks that a block names keeps the block. -/
theorem Block.retarget_eq_self {f : BlockId → BlockId} {b : Block}
    (h : ∀ i ∈ b.code, ∀ t ∈ i.targets, f t = t) : b.retarget f = b :=
  (Block.retarget_congr h).trans b.retarget_self

/-! ## Blocks that branch at their end only -/

/-- The code before the last instruction names no block. -/
def Block.Tidy (b : Block) : Prop := ∀ i ∈ b.code, i.isTerminator = false → i.targets = []

/-- The block ends in a terminator and has none before. -/
def Block.Ends (b : Block) : Prop :=
  ∃ body last, b.code = body ++ [last] ∧ last.isTerminator = true ∧
    ∀ i ∈ body, i.isTerminator = false

theorem Block.Ends.terminator? {b : Block} {body : List Instr} {last : Instr}
    (hc : b.code = body ++ [last]) (hl : last.isTerminator = true) :
    b.terminator? = some last := by
  unfold Block.terminator?
  simp [hc, hl]

theorem Block.targets_eq {b : Block} {body : List Instr} {last : Instr}
    (hc : b.code = body ++ [last]) (hl : last.isTerminator = true) :
    b.targets = last.targets := by
  unfold Block.targets
  rw [Block.Ends.terminator? hc hl]
  rfl

theorem Block.mem_targets {b : Block} (he : b.Ends) (ht : b.Tidy) {t : BlockId} :
    t ∈ b.targets ↔ ∃ i ∈ b.code, t ∈ i.targets := by
  obtain ⟨body, last, hc, hl, hbody⟩ := he
  rw [Block.targets_eq hc hl]
  constructor
  · intro h
    exact ⟨last, by simp [hc], h⟩
  · rintro ⟨i, hi, h⟩
    rw [hc, List.mem_append, List.mem_singleton] at hi
    rcases hi with hi | rfl
    · rw [ht i (by simp [hc, hi]) (hbody i hi)] at h
      cases h
    · exact h

theorem Block.retarget_ends {f : BlockId → BlockId} {b : Block} (h : b.Ends) :
    (b.retarget f).Ends := by
  obtain ⟨body, last, hc, hl, hbody⟩ := h
  refine ⟨body.map (Instr.retarget f), last.retarget f, by simp [Block.retarget, hc], hl, ?_⟩
  intro i hi
  obtain ⟨j, hj, rfl⟩ := List.mem_map.mp hi
  exact hbody j hj

theorem Block.retarget_targets {f : BlockId → BlockId} {b : Block} (h : b.Ends) :
    (b.retarget f).targets = b.targets.map f := by
  obtain ⟨body, last, hc, hl, -⟩ := h
  have hc' : (b.retarget f).code = body.map (Instr.retarget f) ++ [last.retarget f] := by
    simp [Block.retarget, hc]
  rw [Block.targets_eq hc hl, Block.targets_eq hc' hl, Instr.retarget_targets]

/-- Redirecting the terminator is passing the whole block through a map. -/
theorem Block.redirectTerminator_eq {old new : BlockId} {b : Block} (he : b.Ends) (ht : b.Tidy) :
    b.redirectTerminator old new = b.retarget (divert old new) := by
  obtain ⟨body, last, hc, hl, hbody⟩ := he
  have hsame : ∀ i ∈ body, i.retarget (divert old new) = i := by
    intro i hi
    rw [Instr.retarget_congr (h := fun t => t), Instr.retarget_self]
    rw [ht i (by simp [hc, hi]) (hbody i hi)]
    simp
  unfold Block.redirectTerminator Block.retarget
  simp [hc, hl, Instr.redirect_eq, List.map_congr_left hsame]

/-! ## Looking up a block -/

namespace Graph

theorem toNat_inj {a b : Int} (ha : ¬ a < 0) (hb : ¬ b < 0) : a.toNat = b.toNat ↔ b = a := by
  omega

theorem block?_of_nonneg {g : Graph} {id : BlockId} (h : 0 ≤ id) :
    g.block? id = (g.slots[id.toNat]?).join := by
  unfold block?
  simp [Int.not_lt.mpr h]

theorem nonneg_of_block? {g : Graph} {id : BlockId} {b : Block} (h : g.block? id = some b) :
    0 ≤ id := by
  unfold block? at h
  split at h
  · cases h
  · rename_i hid
    exact Int.not_lt.mp hid

theorem has_iff {g : Graph} {id : BlockId} : g.has id = true ↔ ∃ b, g.block? id = some b := by
  unfold has
  rw [Option.isSome_iff_exists]

theorem slots_getElem? (g : Graph) (n : Nat) :
    (g.slots[n]?).join = g.block? (n : Int) := by
  rw [block?_of_nonneg (Int.natCast_nonneg n)]
  simp

/-- Graphs with the same fields, as many slots and the same live blocks are equal. -/
theorem ext_block? {g h : Graph} (hname : g.name = h.name) (horder : g.order = h.order)
    (hentry : g.entry = h.entry) (hnext : g.nextValue = h.nextValue) (hcap : g.cap = h.cap)
    (hblock : ∀ id, g.block? id = h.block? id) : g = h := by
  have hslots : g.slots = h.slots := by
    apply List.ext_getElem
    · exact hcap
    · intro n h1 h2
      have hb := hblock (n : Int)
      rw [← slots_getElem?, ← slots_getElem?, List.getElem?_eq_getElem h1,
        List.getElem?_eq_getElem h2] at hb
      simpa using hb
  cases g
  cases h
  simp_all

theorem block?_modifyBlock (g : Graph) (id j : Int) (f : Block → Block) :
    (g.modifyBlock id f).block? j = if j = id then (g.block? j).map f else g.block? j := by
  unfold modifyBlock
  by_cases hid : id < 0
  · simp only [hid, if_true]
    split
    · rename_i hj
      subst hj
      simp [block?, hid]
    · rfl
  · simp only [hid, if_false]
    unfold block?
    by_cases hj : j < 0
    · simp [hj]
    · simp only [hj, if_false]
      have hiff : id.toNat = j.toNat ↔ j = id := toNat_inj hid hj
      rw [List.getElem?_modify]
      simp only [hiff]
      split
      · rcases g.slots[j.toNat]? with _ | x
        · rfl
        · rfl
      · rcases g.slots[j.toNat]? with _ | x
        · rfl
        · rfl

theorem block?_dropBlock {g : Graph} {id : BlockId} (h : 0 ≤ id) (j : BlockId) :
    (g.dropBlock id).block? j = if j = id then none else g.block? j := by
  unfold dropBlock block?
  by_cases hj : j < 0
  · simp [hj]
  · have hiff : id.toNat = j.toNat ↔ j = id := toNat_inj (Int.not_lt.mpr h) hj
    simp only [hj, if_false]
    rw [List.getElem?_set]
    simp only [hiff]
    split
    · split <;> rfl
    · rfl

theorem has_dropBlock {g : Graph} {id : BlockId} (hlive : g.has id = true) (j : BlockId) :
    (g.dropBlock id).has j = true ↔ j ≠ id ∧ g.has j = true := by
  obtain ⟨b, hb⟩ := has_iff.mp hlive
  unfold has
  rw [block?_dropBlock (nonneg_of_block? hb)]
  by_cases hj : j = id <;> simp [hj]

/-- The four things that are asked before a block is removed. -/
theorem removalFault?_eq_none {g : Graph} {id : BlockId} :
    g.removalFault? id = none ↔ g.has id = true ∧ g.entry ≠ some id ∧ g.order.length ≠ 1 ∧
      ∀ i ∈ g.instrs, id ∉ i.targets := by
  unfold removalFault? referencedBy?
  by_cases hlive : g.has id = true
  · by_cases hentry : g.entry = some id
    · simp [hlive, hentry]
    · by_cases hlast : g.order.length = 1 <;> simp [hlive, hentry, hlast]
  · simp [hlive]

theorem removeBlock_eq_ok {g g' : Graph} {id : BlockId} :
    g.removeBlock id = .ok g' ↔ g.removalFault? id = none ∧ g' = g.dropBlock id := by
  unfold removeBlock
  cases g.removalFault? id with
  | none => simp [eq_comm]
  | some v => simp

/-- The same change made to each block of a list. -/
theorem block?_foldl_modifyBlock (f : Block → Block) (ids : List BlockId) (g : Graph)
    (hn : ids.Nodup) (j : BlockId) :
    (ids.foldl (fun g p => g.modifyBlock p f) g).block? j =
      if j ∈ ids then (g.block? j).map f else g.block? j := by
  induction ids generalizing g with
  | nil => simp
  | cons p ids ih =>
    obtain ⟨hp, hn⟩ := List.nodup_cons.mp hn
    rw [List.foldl_cons, ih _ hn, block?_modifyBlock]
    by_cases hj : j = p
    · subst hj
      simp [hp]
    · simp [hj]

@[simp] theorem modifyBlock_name (g : Graph) (id : BlockId) (f : Block → Block) :
    (g.modifyBlock id f).name = g.name := by
  unfold modifyBlock
  split <;> rfl

@[simp] theorem modifyBlock_order (g : Graph) (id : BlockId) (f : Block → Block) :
    (g.modifyBlock id f).order = g.order := by
  unfold modifyBlock
  split <;> rfl

@[simp] theorem modifyBlock_entry (g : Graph) (id : BlockId) (f : Block → Block) :
    (g.modifyBlock id f).entry = g.entry := by
  unfold modifyBlock
  split <;> rfl

@[simp] theorem modifyBlock_nextValue (g : Graph) (id : BlockId) (f : Block → Block) :
    (g.modifyBlock id f).nextValue = g.nextValue := by
  unfold modifyBlock
  split <;> rfl

@[simp] theorem modifyBlock_cap (g : Graph) (id : BlockId) (f : Block → Block) :
    (g.modifyBlock id f).cap = g.cap := by
  unfold modifyBlock
  split
  · rfl
  · simp [cap]

/-- A change of blocks changes nothing but the slots. -/
theorem foldl_modifyBlock_fields (f : Block → Block) (ids : List BlockId) (g : Graph) :
    let h := ids.foldl (fun g p => g.modifyBlock p f) g
    h.name = g.name ∧ h.order = g.order ∧ h.entry = g.entry ∧ h.nextValue = g.nextValue ∧
      h.cap = g.cap := by
  induction ids generalizing g with
  | nil => simp
  | cons p ids ih => simpa using ih (g.modifyBlock p f)

/-! ## Whole edits -/

/-- The graph with every listed block passed through a map. -/
def retarget (f : BlockId → BlockId) (g : Graph) : Graph :=
  { g with slots := g.slots.mapIdx fun n s =>
      if (n : Int) ∈ g.order then s.map (Block.retarget f) else s }

/-- The graph without the blocks of a list. -/
def without (ids : List BlockId) (g : Graph) : Graph :=
  { g with
    slots := g.slots.mapIdx fun n s => if (n : Int) ∈ ids then none else s
    order := g.order.filter (· ∉ ids) }

@[simp] theorem retarget_cap (f : BlockId → BlockId) (g : Graph) : (g.retarget f).cap = g.cap := by
  simp [retarget, cap]

@[simp] theorem without_cap (ids : List BlockId) (g : Graph) : (g.without ids).cap = g.cap := by
  simp [without, cap]

theorem block?_retarget (f : BlockId → BlockId) (g : Graph) (id : BlockId) :
    (g.retarget f).block? id =
      if id ∈ g.order then (g.block? id).map (Block.retarget f) else g.block? id := by
  unfold retarget block?
  by_cases hid : id < 0
  · simp [hid]
  · simp only [hid, if_false, List.getElem?_mapIdx, Int.toNat_of_nonneg (Int.not_lt.mp hid)]
    split
    · rcases g.slots[id.toNat]? with _ | x
      · rfl
      · rfl
    · rcases g.slots[id.toNat]? with _ | x
      · rfl
      · rfl

theorem block?_without (ids : List BlockId) (g : Graph) (id : BlockId) :
    (g.without ids).block? id = if id ∈ ids then none else g.block? id := by
  unfold without block?
  by_cases hid : id < 0
  · simp [hid]
  · simp only [hid, if_false, List.getElem?_mapIdx, Int.toNat_of_nonneg (Int.not_lt.mp hid)]
    split
    · rcases g.slots[id.toNat]? with _ | x
      · rfl
      · rfl
    · rcases g.slots[id.toNat]? with _ | x
      · rfl
      · rfl

theorem mem_without_order {ids : List BlockId} {g : Graph} {id : BlockId} :
    id ∈ (g.without ids).order ↔ id ∈ g.order ∧ id ∉ ids := by
  simp [without]

theorem retarget_retarget (f h : BlockId → BlockId) (g : Graph) :
    (g.retarget f).retarget h = g.retarget (h ∘ f) := by
  refine ext_block? rfl rfl rfl rfl (by simp) ?_
  intro id
  have ho : (g.retarget f).order = g.order := rfl
  rw [block?_retarget, block?_retarget, block?_retarget, ho]
  split
  · rcases g.block? id with _ | b
    · rfl
    · simp [Block.retarget_retarget]
  · rfl

theorem retarget_self (g : Graph) : g.retarget (fun b => b) = g := by
  refine ext_block? rfl rfl rfl rfl (by simp) ?_
  intro id
  rw [block?_retarget]
  split
  · rcases g.block? id with _ | b
    · rfl
    · rw [Option.map_some, Block.retarget_self]
  · rfl

/-- Taking out one block is taking out a list of one. -/
theorem dropBlock_eq_without {g : Graph} {id : BlockId} (h : 0 ≤ id) (hn : g.order.Nodup) :
    g.dropBlock id = g.without [id] := by
  refine ext_block? rfl ?_ rfl rfl (by simp [cap, dropBlock, without]) ?_
  · simp only [dropBlock, without, List.mem_singleton]
    rw [hn.erase_eq_filter]
    congr 1
    funext x
    by_cases hx : x = id <;> simp [hx]
  · intro j
    rw [block?_dropBlock h, block?_without]
    simp

theorem without_without (a b : List BlockId) (g : Graph) :
    (g.without a).without b = g.without (a ++ b) := by
  refine ext_block? rfl ?_ rfl rfl (by simp) ?_
  · simp only [without, List.filter_filter]
    congr 1
    funext x
    by_cases ha : x ∈ a <;> by_cases hb : x ∈ b <;> simp [ha, hb]
  · intro id
    rw [block?_without, block?_without, block?_without]
    by_cases ha : id ∈ a <;> by_cases hb : id ∈ b <;> simp [ha, hb]

theorem without_nil (g : Graph) : g.without [] = g := by
  refine ext_block? rfl ?_ rfl rfl (by simp) ?_
  · simp [without]
  · intro id
    simp [block?_without]

/-- The graph `n` has those blocks of `g` that stay, in their order and as they were in
`g`. Nothing else is changed. -/
structure CutTo (g : Graph) (stays : BlockId → Prop) (n : Graph) : Prop where
  name : n.name = g.name
  cap : n.cap = g.cap
  nextValue : n.nextValue = g.nextValue
  entry : n.entry = g.entry
  order : n.order.Sublist g.order
  live : ∀ b, b ∈ n.order ↔ b ∈ g.order ∧ stays b
  block : ∀ b ∈ n.order, n.block? b = g.block? b
  removed : ∀ b ∈ g.order, b ∉ n.order → n.block? b = none
  others : ∀ b, b ∉ g.order → n.block? b = g.block? b

theorem cutTo_without {g : Graph} {ids : List BlockId} (h : ∀ b ∈ ids, b ∈ g.order) :
    g.CutTo (· ∉ ids) (g.without ids) where
  name := rfl
  cap := without_cap ids g
  nextValue := rfl
  entry := rfl
  order := List.filter_sublist
  live _ := mem_without_order
  block b hb := by rw [block?_without, if_neg (mem_without_order.mp hb).2]
  removed b hb hout := by
    have hid : b ∈ ids := by
      by_contra hno
      exact hout (mem_without_order.mpr ⟨hb, hno⟩)
    rw [block?_without, if_pos hid]
  others b hb := by rw [block?_without, if_neg (fun hid => hb (h b hid))]

end Graph

end FlowGraph
