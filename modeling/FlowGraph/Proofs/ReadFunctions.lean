import FlowGraph.Proofs.Reading
import FlowGraph.Proofs.WellFormed
import FlowGraph.Text.Bytes

/-!
What reading guarantees of a function before any check. The labels differ, the
instructions are numbered in the order in which they stand, and what an
instruction names is there: a value that was given before it, or a label of the
function. All that is left for the check to find is a block that does not end
in its only terminator.
-/

namespace FlowGraph

/-! ## Blocks and actions of outlines -/

theorem getElem?_blocksFrom {b n k : Nat} {bs : List (String × List Action)} {block : Block}
    (h : (blocksFrom b n bs)[k]? = some block) :
    block.id = (b + k : Nat) ∧ block.owner = .holder ∧ ∀ i ∈ block.code, i.block = (b + k : Nat) := by
  induction bs generalizing b n k with
  | nil => simp [blocksFrom] at h
  | cons e bs ih =>
    rw [blocksFrom] at h
    cases k with
    | zero =>
      cases h
      refine ⟨rfl, rfl, ?_⟩
      intro i hi
      obtain ⟨_, _, rfl⟩ := List.mem_map.mp hi
      rfl
    | succ k =>
      have hnext : b + (k + 1) = b + 1 + k := by omega
      rw [hnext]
      exact ih h

/-- The operands are those that the operation is written with. -/
def Action.Written (a : Action) : Prop :=
  match a.op with
  | .const | .arg => a.args = []
  | .add | .sub | .mul | .cmp => ∃ x y, a.args = [.value x, .value y]
  | .call => ∃ vs : List ValueId, a.args = vs.map .value
  | .br => ∃ t, a.args = [.block t]
  | .brif => ∃ c yes no, a.args = [.value c, .block yes, .block no]
  | .ret => a.args = [] ∨ ∃ v, a.args = [.value v]
  | .unknown _ => False

theorem Action.Proper.written {labels : Nat} {given : ValueId → Prop} {a : Action}
    (h : a.Proper labels given) : a.Written := by
  cases h with
  | const | arg => rfl
  | binary hop => rcases hop with rfl | rfl | rfl <;> exact ⟨_, _, rfl⟩
  | cmp => exact ⟨_, _, rfl⟩
  | call => exact ⟨_, rfl⟩
  | br => exact ⟨_, rfl⟩
  | brif => exact ⟨_, _, _, rfl⟩
  | @ret vs hlen =>
    rcases vs with _ | ⟨v, _ | ⟨w, vs⟩⟩
    · exact .inl rfl
    · exact .inr ⟨v, rfl⟩
    · simp at hlen

theorem Action.Written.fits {a : Action} (h : a.Written) : a.Fits := by
  unfold Action.Written at h
  unfold Action.Fits
  cases hop : a.op with
  | const | arg =>
    simp only [hop] at h
    exact ⟨[], h⟩
  | add | sub | mul | cmp =>
    simp only [hop] at h
    obtain ⟨x, y, h⟩ := h
    exact ⟨[x, y], h⟩
  | call | br | brif | ret =>
    simp only [hop] at h
    exact h
  | unknown c =>
    simp only [hop] at h

theorem Action.Proper.fits {labels : Nat} {given : ValueId → Prop} {a : Action}
    (h : a.Proper labels given) : a.Fits :=
  h.written.fits

theorem Action.Proper.cond {labels : Nat} {given : ValueId → Prop} {i : Instr}
    (h : i.toAction.Proper labels given) : i.op = .cmp → (Cond.ofName? i.cond).isSome := by
  generalize i.toAction = a at h ⊢
  intro hop
  cases h with
  | cmp c =>
    show (Cond.ofName? c.name).isSome
    rw [Cond.ofName?_name]
    rfl
  | binary hop' => rcases hop' with rfl | rfl | rfl <;> cases hop
  | const | arg | call | br | brif | ret => cases hop

namespace Outline

theorem mem_order_graph {o : Outline} {b : BlockId} :
    b ∈ o.graph.order ↔ ∃ k : Nat, k < o.blocks.length ∧ b = k := by
  simp only [graph, List.mem_map, List.mem_range, Int.ofNat_eq_natCast, eq_comm (b := b)]

theorem Valid.proper_of_mem {o : Outline} (h : o.Valid) {i : Instr} (hi : i ∈ o.graph.instrs) :
    ∃ k : Nat, i.id = k ∧ o.actions[k]? = some i.toAction ∧
      i.toAction.Proper o.blocks.length (Gives (o.actions.take k)) := by
  have hmem : (i.toAction, i.id) ∈ o.graph.instrs.map (fun i => (i.toAction, i.id)) :=
    List.mem_map_of_mem hi
  rw [o.map_instrs_graph] at hmem
  obtain ⟨⟨a, k⟩, hak, heq⟩ := List.mem_map.mp hmem
  obtain ⟨rfl, hid⟩ : a = i.toAction ∧ (k : Int) = i.id := Prod.mk.inj heq
  have hk := List.mk_mem_zipIdx_iff_getElem?.mp hak
  exact ⟨k, hid.symm, hk, h.proper k _ hk⟩

/-- A listed block is there, and the instructions in it have no fault. -/
theorem Valid.block_of_mem {o : Outline} (h : o.Valid) {b : BlockId} (hb : b ∈ o.graph.order) :
    ∃ block, o.graph.block? b = some block ∧ block.id = b ∧ block.owner = .holder ∧
      ∀ i ∈ block.code, o.graph.instrFault? b i = none := by
  obtain ⟨k, hk, rfl⟩ := mem_order_graph.mp hb
  obtain ⟨block, hblock⟩ := Graph.has_iff.mp (o.has_graph hk)
  obtain ⟨hid, howner, hown⟩ := getElem?_blocksFrom (o.block?_graph k ▸ hblock)
  rw [Nat.zero_add] at hid hown
  refine ⟨block, hblock, hid, howner, fun i hi => Graph.instrFault?_eq_none.mpr ?_⟩
  obtain ⟨_, -, -, hproper⟩ := h.proper_of_mem (Graph.mem_instrs.mpr ⟨k, hb, block, hblock, hi⟩)
  refine ⟨hown i hi, hproper.fits, fun t ht => ?_⟩
  rcases hproper.operands _ (Action.mem_targets.mp ht) with ⟨v, -, heq⟩ | ⟨j, hj, heq⟩
  · cases heq
  · cases heq
    exact mem_order_graph.mpr ⟨j, hj, rfl⟩

/-- The check of a function that is read is that of its blocks, one by one. -/
theorem Valid.fault?_eq {o : Outline} (h : o.Valid) : o.graph.fault? = o.graph.malformedBlock? := by
  obtain ⟨e, he, hlt⟩ := h.entry
  have hmem : (e : Int) ∈ o.graph.order := mem_order_graph.mpr ⟨e, hlt, rfl⟩
  have hne : o.graph.order.isEmpty = false := by
    simpa using List.ne_nil_of_mem hmem
  have horder : o.graph.orderFault? [] o.graph.order = none := by
    refine Graph.orderFault?_eq_none.mpr ⟨fun b hb => ?_, ?_, by simp⟩
    · obtain ⟨block, hblock, hid, -⟩ := h.block_of_mem hb
      rw [hblock, Option.map_some, hid]
    · exact List.nodup_range.map fun _ _ => Int.ofNat.inj
  have hentry : (o.graph.entry.filter o.graph.order.contains).isNone = false := by
    have hat : o.graph.entry = some (e : Int) := by simp [graph, he]
    simp [hat, Option.filter, hmem]
  have hlive : ∀ b ∈ o.graph.order,
      o.graph.liveFault? b = (o.graph.block? b).bind o.graph.blockViolation? := by
    intro b hb
    obtain ⟨block, hblock, -, howner, hcode⟩ := h.block_of_mem hb
    simp [Graph.liveFault?, hblock, howner, List.findSome?_eq_none_iff.mpr hcode]
  unfold Graph.fault? Graph.malformedBlock? Graph.blocks
  rw [findSome?_filterMap hlive, hne, horder, hentry]
  rfl

/-- A function that is read is well formed once each block ends in its only terminator. -/
theorem Valid.wellFormed {o : Outline} (h : o.Valid) (hends : o.graph.malformedBlock? = none) :
    o.graph.WellFormed :=
  Graph.fault?_eq_none.mp (h.fault?_eq.trans hends)

end Outline

/-! ## What the check can find -/

theorem Block.reason_of_fault? {b : Block} {i : Option Instr} {why : Reason}
    (h : b.fault? = some (i, why)) :
    why ∈ [Reason.noInstructions, .earlyTerminator, .missingTerminator] := by
  unfold Block.fault? at h
  split at h
  · cases h
    simp
  split at h
  · cases h
    simp
  split at h
  · cases h
  · cases h
    simp

namespace Outline

/-- The violation of a block names the function, the block and the instruction at fault. -/
theorem Valid.blockViolation?_eq {o : Outline} (h : o.Valid) {b : Block} (hb : b ∈ o.graph.blocks)
    {i : Option Instr} {why : Reason} (hfault : b.fault? = some (i, why)) :
    o.graph.blockViolation? b = some {
      function := o.graph.name
      block := b.id
      blockName := b.name
      instr := i.map fun i => (i.id, i.op)
      reason := why } := by
  obtain ⟨id, hid, hblock⟩ := Graph.mem_blocks.mp hb
  obtain ⟨b', hb', rfl, howner, -⟩ := h.block_of_mem hid
  rw [hblock] at hb'
  cases hb'
  simp [Graph.blockViolation?, hfault, howner, Graph.violation, Graph.blockName, hblock]

end Outline

/-! ## What reading guarantees -/

/-- What a function has from the way it is written. -/
structure Graph.Written (g : Graph) : Prop where
  listed : g.blocks.map (·.id) = g.order
  names : (g.blocks.map (·.name)).Nodup
  -- the instructions are numbered in the order of the blocks and of their code
  ids : g.instrs.map (·.id) = (List.range g.instrs.length).map Int.ofNat
  -- a value is given before it is named
  values : ∀ i ∈ g.instrs, ∀ v, .value v ∈ i.args →
    ∃ j ∈ g.instrs, j.id = v ∧ j.op.defines = true ∧ j.id < i.id
  targets : ∀ i ∈ g.instrs, ∀ t, .block t ∈ i.args → t ∈ g.order ∧ g.has t = true
  operands : ∀ i ∈ g.instrs, i.Written

theorem Outline.Valid.written {o : Outline} (h : o.Valid) : o.graph.Written where
  listed := by
    rw [blocks_graph, map_id_blocksFrom, ← List.range_eq_range']
    rfl
  names := by
    rw [blocks_graph, map_name_blocksFrom]
    exact h.nodup
  ids := by
    have hids := o.map_id_instrs_graph
    have hlength := congrArg List.length hids
    rw [List.length_map, List.length_map, List.length_range] at hlength
    rw [hids, hlength]
  values i hi v hv := by
    obtain ⟨k, hk, -, hproper⟩ := h.proper_of_mem hi
    rcases hproper.operands _ hv with ⟨w, ⟨j, a, hj, hdefines, rfl⟩, heq⟩ | ⟨t, -, heq⟩
    · cases heq
      have hlt : j < k := by
        have := (List.getElem?_eq_some_iff.mp hj).1
        rw [List.length_take] at this
        omega
      rw [List.getElem?_take_of_lt hlt] at hj
      obtain ⟨i', hi', hid, rfl⟩ := exists_instr_graph hj
      refine ⟨i', hi', hid, hdefines, ?_⟩
      rw [hid, hk]
      exact Int.ofNat_lt.mpr hlt
    · cases heq
  targets i hi t ht := by
    obtain ⟨_, -, -, hproper⟩ := h.proper_of_mem hi
    rcases hproper.operands _ ht with ⟨v, -, heq⟩ | ⟨k, hk, heq⟩
    · cases heq
    · cases heq
      exact ⟨mem_order_graph.mpr ⟨k, hk, rfl⟩, o.has_graph hk⟩
  operands i hi := by
    obtain ⟨_, -, -, hproper⟩ := h.proper_of_mem hi
    exact hproper.written

/-- Each function of a text that is read is as it is written: its labels differ, its
instructions are numbered in order, and they have the operands of their operations, which name
values given before and blocks that are there. The check passes it exactly when each block ends
in its only terminator, and otherwise tells what is wrong with the first block that does not. -/
theorem the_check_of_a_read_function_is_that_of_its_blocks {path : String} {text : List UInt8}
    {p : Program} (h : Text.read path text = .ok p) :
    ∀ g ∈ p.functions, g.Written ∧
      (g.fault? = none ↔ ∀ b ∈ g.blocks, b.fault? = none) ∧
      (∀ earlier b later i why, g.blocks = earlier ++ b :: later →
        (∀ c ∈ earlier, c.fault? = none) → b.fault? = some (i, why) →
        g.fault? = g.blockViolation? b ∧ g.blockViolation? b = some {
          function := g.name
          block := b.id
          blockName := b.name
          instr := i.map fun i => (i.id, i.op)
          reason := why }) ∧
      ∀ v, g.fault? = some v →
        v.reason ∈ [Reason.noInstructions, .earlyTerminator, .missingTerminator] := by
  intro g hg
  obtain ⟨-, os, hos, hvalid, -⟩ := Text.wellRead_of_read h
  rw [hos] at hg
  obtain ⟨o, ho, rfl⟩ := List.mem_map.mp hg
  have hv := hvalid o ho
  refine ⟨hv.written, ?_, ?_, ?_⟩
  · rw [hv.fault?_eq, Graph.malformedBlock?_eq_none]
  · intro earlier b later i why hblocks hearlier hb
    have hviolation := hv.blockViolation?_eq (by simp [hblocks]) hb
    refine ⟨?_, hviolation⟩
    rw [hv.fault?_eq, Graph.malformedBlock?_of_first hblocks hearlier hviolation, hviolation]
  · intro v hfault
    rw [hv.fault?_eq] at hfault
    obtain ⟨b, hb, hviolation⟩ := List.exists_of_findSome?_eq_some hfault
    obtain ⟨f, hbfault, -⟩ := Option.map_eq_some_iff.mp hviolation
    obtain ⟨i, why⟩ := f
    rw [hv.blockViolation?_eq hb hbfault] at hviolation
    cases hviolation
    exact Block.reason_of_fault? hbfault

/-- A program whose first function has a block that goes on after its end and an empty one. -/
def Program.ragged : Program where
  path := "ragged"
  functions := [
    Outline.graph {
      name := "f"
      blocks := [
        ("start", [.arg 0, .br 1]),
        ("go", [.binary .add 0 0, .br 2, .brif 2 0 2]),
        ("end", [])]
      entry := some 1 },
    Outline.graph {
      name := "main"
      blocks := [("in", [.const 7, .call "f" [0, 0], .ret [1]])]
      entry := some 0 }]

def Program.raggedText : List UInt8 :=
  Text.bytesOf ("func f entry go \x7b\nstart:\n x = arg 0\n br go\ngo:\n y = add x x\n br end\n" ++
    " brif y start end\nend:\n\x7d\nfunc main \x7b\nin:\n z = const 7\n w = call f z, z\n" ++
    " ret w\n\x7d")

theorem the_check_of_ragged_is_that_of_its_blocks :
    Text.read "ragged" Program.raggedText = .ok Program.ragged ∧
      (∃ g ∈ Program.ragged.functions, g.Written ∧ g.fault? = some {
        function := "f"
        block := 1
        blockName := "go"
        instr := some (3, .br)
        reason := .earlyTerminator }) ∧
      ∃ g ∈ Program.ragged.functions, g.Written ∧ g.fault? = none := by
  have hread : Text.read "ragged" Program.raggedText = .ok Program.ragged := by decide +kernel
  have hall := the_check_of_a_read_function_is_that_of_its_blocks hread
  refine ⟨hread, ⟨_, List.mem_cons_self, ?_⟩, ⟨_, List.mem_cons_of_mem _ List.mem_cons_self, ?_⟩⟩
  · obtain ⟨hwritten, -, hfirst, -⟩ := hall _ List.mem_cons_self
    obtain ⟨hfault, hviolation⟩ := hfirst [_] _ [_] (some _) _ rfl (by decide +kernel) rfl
    exact ⟨hwritten, hfault.trans hviolation⟩
  · obtain ⟨hwritten, hpass, -⟩ := hall _ (List.mem_cons_of_mem _ List.mem_cons_self)
    exact ⟨hwritten, hpass.mpr (by decide +kernel)⟩

end FlowGraph
