import FlowGraph.Proofs.Graph
import FlowGraph.Proofs.Lists
import FlowGraph.Text.Reader

/-!
The functions that a text can give. An outline is a function the way its lines
have it: the labels in order, each with the actions under it. The numbers of
blocks and of instructions follow from the order alone.
-/

namespace FlowGraph

/-! ## The graph of an outline -/

/-- A function as it is written. -/
structure Outline where
  name : String
  -- the labels in order, each with the actions under it
  blocks : List (String × List Action) := []
  -- the place of the entry among the labels
  entry : Option Nat := none

/-- Actions put into a block one after the other, numbered from `n` on. -/
def numbered (b n : Nat) (as : List Action) : List Instr :=
  (as.zipIdx n).map fun (a, i) => { toAction := a, id := i, block := b }

/-- The blocks of labels, with blocks numbered from `b` on and instructions from `n` on. -/
def blocksFrom : Nat → Nat → List (String × List Action) → List Block
  | _, _, [] => []
  | b, n, (name, as) :: rest =>
    { id := b, name := name, code := numbered b n as } :: blocksFrom (b + 1) (n + as.length) rest

namespace Outline

def labels (o : Outline) : List String := o.blocks.map (·.1)

def actions (o : Outline) : List Action := o.blocks.flatMap (·.2)

def graph (o : Outline) : Graph where
  name := o.name
  slots := (blocksFrom 0 0 o.blocks).map some
  order := (List.range o.blocks.length).map Int.ofNat
  entry := o.entry.map Int.ofNat
  nextValue := o.actions.length

@[simp] theorem graph_name (o : Outline) : o.graph.name = o.name := rfl

@[simp] theorem length_labels (o : Outline) : o.labels.length = o.blocks.length :=
  List.length_map _

/-- The actions under the last label are the last. -/
theorem actions_snoc (name : String) (entry : Option Nat) (bs : List (String × List Action))
    (n : String) (as : List Action) :
    actions ⟨name, bs ++ [(n, as)], entry⟩ = bs.flatMap (·.2) ++ as := by
  simp [actions]

end Outline

@[simp] theorem length_blocksFrom (b n : Nat) (bs : List (String × List Action)) :
    (blocksFrom b n bs).length = bs.length := by
  induction bs generalizing b n with
  | nil => rfl
  | cons e bs ih => simp [blocksFrom, ih]

theorem blocksFrom_append (b n : Nat) (bs bs' : List (String × List Action)) :
    blocksFrom b n (bs ++ bs') = blocksFrom b n bs ++
      blocksFrom (b + bs.length) (n + (bs.flatMap (·.2)).length) bs' := by
  induction bs generalizing b n with
  | nil => rfl
  | cons e bs ih =>
    simp only [List.cons_append, blocksFrom, ih, List.length_cons, List.flatMap_cons,
      List.length_append]
    congr 3 <;> omega

/-- Where there are no actions, it does not matter how they would be numbered. -/
theorem blocksFrom_bare (b n m : Nat) (names : List String) :
    blocksFrom b n (names.map (·, [])) = blocksFrom b m (names.map (·, [])) := by
  induction names generalizing b n m with
  | nil => rfl
  | cons name names ih =>
    simp only [List.map_cons, blocksFrom]
    rw [ih (b + 1) (n + _) (m + _)]
    rfl

theorem flatMap_bare (names : List String) :
    (names.map (·, ([] : List Action))).flatMap (·.2) = [] := by
  simp [List.flatMap_map]

theorem numbered_snoc (b n : Nat) (as : List Action) (a : Action) :
    numbered b n (as ++ [a]) =
      numbered b n as ++ [{ toAction := a, id := (n + as.length : Nat), block := b }] := by
  simp [numbered, List.zipIdx_append]

namespace Outline

/-- A label declared. -/
theorem graph_addBlock (o : Outline) {n : String} (hn : n ≠ "") :
    o.graph.addBlock n =
      graph { o with
        blocks := o.blocks ++ [(n, [])]
        entry := o.entry.or (some o.blocks.length) } := by
  unfold Graph.addBlock graph actions
  simp only [Graph.nextBlock, List.length_map, length_blocksFrom, if_neg hn, blocksFrom_append,
    List.map_append, List.length_append, List.length_singleton, List.range_succ,
    List.flatMap_append]
  simp only [blocksFrom, Nat.zero_add, Option.map_or]
  rfl

/-- The graph seen from one of its blocks, with labels ahead. -/
theorem graph_at (name : String) (entry : Option Nat) (bs : List (String × List Action))
    (n : String) (as : List Action) (ahead : List String) :
    graph ⟨name, bs ++ (n, as) :: ahead.map (·, []), entry⟩ =
      { name := name
        slots := (blocksFrom 0 0 bs).map some ++
          some { id := bs.length, name := n, code := numbered bs.length (bs.flatMap (·.2)).length as } ::
            (blocksFrom (bs.length + 1) 0 (ahead.map (·, []))).map some
        order := (List.range (bs.length + (ahead.length + 1))).map Int.ofNat
        entry := entry.map Int.ofNat
        nextValue := ((bs.flatMap (·.2)).length + as.length : Nat) } := by
  unfold graph actions
  simp only [blocksFrom_append, blocksFrom, List.map_append, List.map_cons, List.length_append,
    List.length_cons, List.length_map, List.flatMap_append, List.flatMap_cons, flatMap_bare,
    List.append_nil, Nat.zero_add, blocksFrom_bare _ _ 0]

theorem block?_graph (o : Outline) (k : Nat) :
    o.graph.block? k = (blocksFrom 0 0 o.blocks)[k]? := by
  have hneg : ¬ ((k : Int) < 0) := by omega
  unfold Graph.block?
  rw [if_neg hneg, Int.toNat_natCast]
  show ((blocksFrom 0 0 o.blocks).map some)[k]?.join = _
  rw [List.getElem?_map]
  cases (blocksFrom 0 0 o.blocks)[k]? <;> rfl

theorem has_graph (o : Outline) {k : Nat} (hk : k < o.blocks.length) : o.graph.has k = true := by
  rw [Graph.has_iff, block?_graph]
  exact ⟨_, List.getElem?_eq_getElem (by simpa using hk)⟩

/-- An action put under the last label seen, with labels ahead. -/
theorem graph_append (name : String) (entry : Option Nat) (bs : List (String × List Action))
    (n : String) (as : List Action) (ahead : List String) (a : Action) :
    (graph ⟨name, bs ++ (n, as) :: ahead.map (·, []), entry⟩).append bs.length a =
      graph ⟨name, bs ++ (n, as ++ [a]) :: ahead.map (·, []), entry⟩ := by
  have hneg : ¬ ((bs.length : Int) < 0) := by omega
  have hlen : ((blocksFrom 0 0 bs).map some).length = bs.length := by simp
  unfold Graph.append Graph.modifyBlock
  rw [if_pos (has_graph _ (by simp)), if_neg hneg, Int.toNat_natCast, graph_at, graph_at,
    numbered_snoc]
  simp only [← hlen]
  rw [modify_append_cons]
  simp [Graph.instrFor, Int.add_assoc]

theorem blocks_graph (o : Outline) : o.graph.blocks = blocksFrom 0 0 o.blocks := by
  have horder : o.graph.order = (List.range (blocksFrom 0 0 o.blocks).length).map Int.ofNat := by
    rw [length_blocksFrom]
    rfl
  have hblock : o.graph.block? ∘ Int.ofNat = fun k => (blocksFrom 0 0 o.blocks)[k]? :=
    funext o.block?_graph
  unfold Graph.blocks
  rw [horder, List.filterMap_map, hblock, filterMap_range_getElem?]

end Outline

theorem map_name_blocksFrom (b n : Nat) (bs : List (String × List Action)) :
    (blocksFrom b n bs).map (·.name) = bs.map (·.1) := by
  induction bs generalizing b n with
  | nil => rfl
  | cons e bs ih => rw [blocksFrom, List.map_cons, List.map_cons, ih]

theorem map_id_blocksFrom (b n : Nat) (bs : List (String × List Action)) :
    (blocksFrom b n bs).map (·.id) = (List.range' b bs.length).map Int.ofNat := by
  induction bs generalizing b n with
  | nil => rfl
  | cons e bs ih =>
    rw [blocksFrom, List.map_cons, List.length_cons, List.range'_succ, List.map_cons, ih]
    rfl

/-- The instructions of a function are its actions, numbered in order. -/
theorem map_instrs_blocksFrom (b n : Nat) (bs : List (String × List Action)) :
    ((blocksFrom b n bs).flatMap (·.code)).map (fun i => (i.toAction, i.id)) =
      ((bs.flatMap (·.2)).zipIdx n).map (fun (a, i) => (a, (i : Int))) := by
  induction bs generalizing b n with
  | nil => rfl
  | cons e bs ih =>
    rw [blocksFrom, List.flatMap_cons, List.flatMap_cons, List.map_append, ih, List.zipIdx_append,
      List.map_append]
    congr 1
    · simp [numbered]

namespace Outline

theorem map_instrs_graph (o : Outline) :
    o.graph.instrs.map (fun i => (i.toAction, i.id)) =
      o.actions.zipIdx.map (fun (a, i) => (a, (i : Int))) := by
  unfold Graph.instrs
  rw [blocks_graph, map_instrs_blocksFrom]
  rfl

/-- The instructions are numbered from zero on. -/
theorem map_id_instrs_graph (o : Outline) :
    o.graph.instrs.map (·.id) = (List.range o.actions.length).map Int.ofNat := by
  have h := congrArg (List.map (·.2)) o.map_instrs_graph
  rw [List.map_map, List.map_map] at h
  rw [List.range_eq_range', ← List.zipIdx_map_snd, List.map_map]
  exact h

/-- The numbers of the instructions go up. -/
theorem rising_instrs_graph (o : Outline) : (o.graph.instrs.map (·.id)).Pairwise (· < ·) := by
  rw [map_id_instrs_graph, List.pairwise_map]
  exact List.pairwise_lt_range.imp fun h => Int.ofNat_lt.mpr h

/-- Each action is that of an instruction. -/
theorem exists_instr_graph {o : Outline} {k : Nat} {a : Action} (h : o.actions[k]? = some a) :
    ∃ i ∈ o.graph.instrs, i.id = k ∧ i.toAction = a := by
  have hmem : (a, (k : Int)) ∈ o.graph.instrs.map (fun i => (i.toAction, i.id)) := by
    rw [map_instrs_graph]
    exact List.mem_map.mpr ⟨(a, k), List.mk_mem_zipIdx_iff_getElem?.mpr h, rfl⟩
  obtain ⟨i, hi, heq⟩ := List.mem_map.mp hmem
  obtain ⟨haction, hid⟩ := Prod.mk.inj heq
  exact ⟨i, hi, hid, haction⟩

/-- No two instructions of a function have the same number. -/
theorem nodup_instrs_graph (o : Outline) : (o.graph.instrs.map (·.id)).Nodup :=
  o.rising_instrs_graph.imp fun h => Int.ne_of_lt h

end Outline

/-! ## What lines can say -/

/-- The name is one that a token can have. -/
def Text.IsIdent (n : String) : Prop :=
  ∃ c rest, isIdentStart c = true ∧ (∀ b ∈ rest, isIdentRest b = true) ∧
    n = asciiText (c :: rest)

/-- The value is given by one of the actions, where the first action gives value zero. -/
def Gives (as : List Action) (v : ValueId) : Prop :=
  ∃ (j : Nat) (a : Action), as[j]? = some a ∧ a.op.defines = true ∧ v = j

/-- Values keep what they stand for when more is given. -/
theorem Gives.append {as : List Action} {v : ValueId} (h : Gives as v) (as' : List Action) :
    Gives (as ++ as') v := by
  obtain ⟨j, a, hj, hrest⟩ := h
  refine ⟨j, a, ?_, hrest⟩
  rw [List.getElem?_append_left (List.getElem?_eq_some_iff.mp hj).1]
  exact hj

theorem gives_last {as : List Action} {a : Action} (h : a.op.defines = true) :
    Gives (as ++ [a]) (as.length : Int) :=
  ⟨as.length, a, by simp, h, rfl⟩

/-- The action is one that a line can stand for, in a function of so many labels and with
these values given before. -/
inductive Action.Proper (labels : Nat) (given : ValueId → Prop) : Action → Prop
  | const (x : Int64) : Proper labels given (.const x)
  | arg {x : Int64} (hx : ¬ x < 0) : Proper labels given (.arg x)
  | binary {op : Op} {x y : ValueId} (hop : op = .add ∨ op = .sub ∨ op = .mul) (hx : given x)
      (hy : given y) : Proper labels given (.binary op x y)
  | cmp (c : Cond) {x y : ValueId} (hx : given x) (hy : given y) :
      Proper labels given (.cmp c.name x y)
  | call {f : String} {vs : List ValueId} (hf : Text.IsIdent f) (hvs : ∀ v ∈ vs, given v) :
      Proper labels given (.call f vs)
  | br {b : Nat} (hb : b < labels) : Proper labels given (.br b)
  | brif {c : ValueId} {yes no : Nat} (hc : given c) (hyes : yes < labels) (hno : no < labels) :
      Proper labels given (.brif c yes no)
  | ret {vs : List ValueId} (hlen : vs.length ≤ 1) (hvs : ∀ v ∈ vs, given v) :
      Proper labels given (.ret vs)

theorem Action.Proper.known {labels : Nat} {given : ValueId → Prop} {a : Action}
    (h : a.Proper labels given) : a.op.isKnown = true := by
  cases h with
  | binary hop => rcases hop with rfl | rfl | rfl <;> rfl
  | const | arg | cmp | call | br | brif | ret => rfl

/-- An operand of a proper action is a value given before or a label of the function. -/
theorem Action.Proper.operands {labels : Nat} {given : ValueId → Prop} {a : Action}
    (h : a.Proper labels given) :
    ∀ x ∈ a.args, (∃ v, given v ∧ x = .value v) ∨ ∃ k : Nat, k < labels ∧ x = .block k := by
  intro x hx
  cases h with
  | const | arg => cases hx
  | binary hop hv hw | cmp c hv hw =>
    rcases List.mem_cons.mp hx with rfl | hx
    · exact .inl ⟨_, hv, rfl⟩
    · exact .inl ⟨_, hw, List.mem_singleton.mp hx⟩
  | call hf hvs | ret hlen hvs =>
    obtain ⟨v, hv, rfl⟩ := List.mem_map.mp hx
    exact .inl ⟨v, hvs v hv, rfl⟩
  | br hb => exact .inr ⟨_, hb, List.mem_singleton.mp hx⟩
  | brif hc hyes hno =>
    rcases List.mem_cons.mp hx with rfl | hx
    · exact .inl ⟨_, hc, rfl⟩
    · rcases List.mem_cons.mp hx with rfl | hx
      · exact .inr ⟨_, hyes, rfl⟩
      · exact .inr ⟨_, hno, List.mem_singleton.mp hx⟩

/-- The operand with blocks and values numbered anew. -/
def Operand.renumber (block : BlockId → BlockId) (value : ValueId → ValueId) : Operand → Operand
  | .value v => .value (value v)
  | .block b => .block (block b)
  | .other k => .other k

/-- The action with blocks and values numbered anew. -/
def Action.renumber (block : BlockId → BlockId) (value : ValueId → ValueId) (a : Action) : Action :=
  { a with args := a.args.map (Operand.renumber block value) }

/-- An action stays proper where its new numbers are those of labels and of values given. -/
theorem Action.Proper.renumber {labels n : Nat} {given given' : ValueId → Prop} {a : Action}
    (h : a.Proper labels given) {block : BlockId → BlockId} {value : ValueId → ValueId}
    (hblock : ∀ b, .block b ∈ a.args → ∃ k : Nat, k < n ∧ block b = k)
    (hvalue : ∀ v, .value v ∈ a.args → given' (value v)) :
    (a.renumber block value).Proper n given' := by
  have hvalues : ∀ vs : List ValueId, (vs.map Operand.value).map (Operand.renumber block value) =
      (vs.map value).map Operand.value := by
    intro vs
    rw [List.map_map, List.map_map]
    rfl
  have hall : ∀ vs : List ValueId, a.args = vs.map .value → ∀ v ∈ vs.map value, given' v := by
    intro vs hvs v hv
    obtain ⟨w, hw, rfl⟩ := List.mem_map.mp hv
    exact hvalue w (hvs ▸ List.mem_map_of_mem hw)
  cases h with
  | const x => exact .const x
  | arg hx => exact .arg hx
  | @binary op x y hop =>
    exact .binary hop (hvalue x (by simp [Action.binary])) (hvalue y (by simp [Action.binary]))
  | @cmp c x y =>
    exact .cmp c (hvalue x (by simp [Action.cmp])) (hvalue y (by simp [Action.cmp]))
  | @call f vs hf =>
    have hcall : Action.Proper n given' (.call f (vs.map value)) := .call hf (hall vs rfl)
    unfold Action.call at hcall
    rw [← hvalues] at hcall
    exact hcall
  | @br b =>
    obtain ⟨k, hk, hb⟩ := hblock b (by simp [Action.br])
    have hbr : Action.Proper n given' (.br k) := .br hk
    rw [← hb] at hbr
    exact hbr
  | @brif c yes no =>
    obtain ⟨k, hk, hyes⟩ := hblock yes (by simp [Action.brif])
    obtain ⟨m, hm, hno⟩ := hblock no (by simp [Action.brif])
    have hbrif : Action.Proper n given' (.brif (value c) k m) :=
      .brif (hvalue c (by simp [Action.brif])) hk hm
    rw [← hyes, ← hno] at hbrif
    exact hbrif
  | @ret vs hlen =>
    have hret : Action.Proper n given' (.ret (vs.map value)) :=
      .ret (by rwa [List.length_map]) (hall vs rfl)
    unfold Action.ret at hret
    rw [← hvalues] at hret
    exact hret

/-- Each action is proper, with the values of those before it. -/
def ProperAll (labels : Nat) (as : List Action) : Prop :=
  ∀ (i : Nat) a, as[i]? = some a → a.Proper labels (Gives (as.take i))

theorem ProperAll.snoc {labels : Nat} {as : List Action} {a : Action} (h : ProperAll labels as)
    (ha : a.Proper labels (Gives as)) : ProperAll labels (as ++ [a]) := by
  intro i b hb
  rcases Nat.lt_trichotomy i as.length with hi | rfl | hi
  · rw [List.getElem?_append_left hi] at hb
    rw [List.take_append_of_le_length (Nat.le_of_lt hi)]
    exact h i b hb
  · rw [List.getElem?_append_right (Nat.le_refl _), Nat.sub_self] at hb
    cases hb
    rw [List.take_left]
    exact ha
  · rw [List.getElem?_eq_none (by simp; omega)] at hb
    cases hb

theorem ProperAll.left {labels : Nat} {as as' : List Action} (h : ProperAll labels (as ++ as')) :
    ProperAll labels as := by
  intro i a ha
  have hi := (List.getElem?_eq_some_iff.mp ha).1
  have := h i a (by rw [List.getElem?_append_left hi]; exact ha)
  rwa [List.take_append_of_le_length (Nat.le_of_lt hi)] at this

/-- The outline is one that a text can have. -/
structure Outline.Valid (o : Outline) : Prop where
  name : Text.IsIdent o.name
  labels : ∀ n ∈ o.labels, Text.IsIdent n
  nodup : o.labels.Nodup
  entry : ∃ e, o.entry = some e ∧ e < o.blocks.length
  proper : ProperAll o.blocks.length o.actions

end FlowGraph
