import Mathlib.Data.List.Flatten
import Mathlib.Data.List.Nodup
import Mathlib.Data.List.Perm.Basic
import FlowGraph.Pass.EmptyBlocks
import FlowGraph.Pass.Unreachable
import FlowGraph.Proofs.WellFormed

/-!
The slots of a graph over whole runs of edits. Whatever is asked of a graph,
and whether it is refused or done, the order lists the live blocks as their
numbers ascend, each slot holds its own block, and no instruction number is
given out twice. A slot that was emptied stays empty.

All edits are made of five: a block is added, an instruction is put at the end
of a block, a block keeps no more than the instructions it has, the entry moves
to a live block, and a live block other than the entry is dropped. The passes
do nothing else, so what these keep the passes keep, even when they stop midway.
-/

namespace FlowGraph

/-- The block `b` is `c` with instructions left out or with other operands. -/
structure Block.Within (b c : Block) : Prop where
  id : b.id = c.id
  owner : b.owner = c.owner
  keys : (b.code.map fun i => (i.id, i.block)).Sublist (c.code.map fun i => (i.id, i.block))

theorem Block.Within.ids {b c : Block} (h : b.Within c) :
    (b.code.map (·.id)).Sublist (c.code.map (·.id)) := by
  have := h.keys.map Prod.fst
  simpa [List.map_map, Function.comp_def] using this

theorem Block.Within.places {b c : Block} (h : b.Within c) {x : BlockId}
    (hc : ∀ i ∈ c.code, i.block = x) : ∀ i ∈ b.code, i.block = x := by
  intro i hi
  have hkey := h.keys.subset (List.mem_map_of_mem hi)
  obtain ⟨j, hj, hij⟩ := List.mem_map.mp hkey
  have hblock : j.block = i.block := congrArg Prod.snd hij
  rw [← hblock]
  exact hc j hj

theorem Block.within_clear (b : Block) : Block.Within { b with code := [] } b :=
  ⟨rfl, rfl, List.nil_sublist _⟩

theorem Block.within_redirectTerminator (old new : BlockId) (b : Block) :
    (b.redirectTerminator old new).Within b := by
  unfold Block.redirectTerminator
  split
  · rename_i i hi
    split
    · refine ⟨rfl, rfl, ?_⟩
      have hcode : b.code = b.code.dropLast ++ [i] := (List.dropLast_append_getLast? i hi).symm
      conv => rhs; rw [hcode]
      simp [Instr.redirect]
    · exact ⟨rfl, rfl, List.Sublist.refl _⟩
  · exact ⟨rfl, rfl, List.Sublist.refl _⟩

/-- The block with the instruction at a place redirected. -/
def Block.redirectAt (place : Nat) (old new : BlockId) (b : Block) : Block :=
  { b with code := b.code.modify place (Instr.redirect old new) }

theorem Block.within_redirectAt (place : Nat) (old new : BlockId) (b : Block) :
    (b.redirectAt place old new).Within b := by
  refine ⟨rfl, rfl, ?_⟩
  have hkeys : (b.redirectAt place old new).code.map (fun i => (i.id, i.block)) =
      b.code.map (fun i => (i.id, i.block)) := by
    apply List.ext_getElem?
    intro n
    simp only [Block.redirectAt, List.getElem?_map, List.getElem?_modify]
    cases b.code[n]? with
    | none => rfl
    | some i => by_cases hn : place = n <;> simp [hn, Instr.redirect]
  rw [hkeys]

namespace Graph

/-! ## The invariant -/

/-- The order, the slots and the entry agree, whatever the blocks hold. The entry is there, or
there was never a block. -/
structure Housed (g : Graph) : Prop where
  nodup : g.order.Nodup
  listed : ∀ id, id ∈ g.order ↔ g.has id = true
  entry : (∃ e, g.entry = some e ∧ g.has e = true) ∨ (g.entry = none ∧ g.cap = 0)

/-- The slots, the order, the entry and the numbers of a graph agree. The order ascends, each
slot holds its own block, and no number of an instruction was given out twice. -/
structure Orderly (g : Graph) : Prop extends Housed g where
  ascending : g.order.Pairwise (· < ·)
  owned : ∀ id b, g.block? id = some b → b.id = id ∧ b.owner = .holder
  distinct : (g.instrs.map (·.id)).Nodup
  numbered : ∀ i ∈ g.instrs, i.id < g.nextValue
  placed : ∀ id b, g.block? id = some b → ∀ i ∈ b.code, i.block = id

/-- Slots are only added, and an empty one stays empty. -/
structure Ages (g g' : Graph) : Prop where
  cap : g.cap ≤ g'.cap
  dead : ∀ id : Nat, id < g.cap → g.has id = false → g'.has id = false

theorem Ages.refl (g : Graph) : g.Ages g := ⟨Nat.le_refl _, fun _ _ h => h⟩

theorem Ages.trans {g g' g'' : Graph} (h : g.Ages g') (h' : g'.Ages g'') : g.Ages g'' := by
  have hcap := h.cap
  refine ⟨Nat.le_trans h.cap h'.cap, ?_⟩
  intro id hlt hdead
  exact h'.dead id (by omega) (h.dead id hlt hdead)

/-- An edit that keeps the invariant and fills no slot again. -/
def Advances (g g' : Graph) : Prop := g.Orderly → g'.Orderly ∧ g.Ages g'

theorem Advances.refl (g : Graph) : g.Advances g := fun h => ⟨h, .refl g⟩

theorem Advances.trans {g g' g'' : Graph} (h : g.Advances g') (h' : g'.Advances g'') :
    g.Advances g'' := by
  intro hg
  obtain ⟨hg', hages⟩ := h hg
  obtain ⟨hg'', hages'⟩ := h' hg'
  exact ⟨hg'', hages.trans hages'⟩

/-! ## The numbers of the instructions -/

/-- The numbers of the instructions in a block, none if the block is not there. -/
def valuesIn (g : Graph) (id : BlockId) : List ValueId :=
  ((g.block? id).map fun b => b.code.map (·.id)).getD []

theorem map_id_instrs (g : Graph) : g.instrs.map (·.id) = g.order.flatMap g.valuesIn := by
  unfold instrs blocks
  induction g.order with
  | nil => rfl
  | cons id order ih =>
    cases hb : g.block? id with
    | none => simp [List.filterMap_cons_none hb, ih, valuesIn, hb]
    | some b => simp [List.filterMap_cons_some hb, ih, valuesIn, hb]

/-- The numbers stay apart and below the next one when some are left out. -/
theorem Orderly.of_sublist {g : Graph} (h : g.Orderly) (g' : Graph)
    (hnext : g'.nextValue = g.nextValue)
    (hids : (g'.instrs.map (·.id)).Sublist (g.instrs.map (·.id))) :
    (g'.instrs.map (·.id)).Nodup ∧ ∀ i ∈ g'.instrs, i.id < g'.nextValue := by
  refine ⟨h.distinct.sublist hids, ?_⟩
  intro i hi
  obtain ⟨j, hj, hij⟩ := List.mem_map.mp (hids.subset (List.mem_map_of_mem hi))
  rw [hnext, ← hij]
  exact h.numbered j hj

/-! ## The order, the slots and the entry -/

theorem lt_cap_of_has {g : Graph} {id : Int} (hlive : g.has id = true) :
    0 ≤ id ∧ id < g.cap := by
  obtain ⟨b, hb⟩ := has_iff.mp hlive
  have hid : (0 : Int) ≤ id := nonneg_of_block? hb
  refine ⟨hid, ?_⟩
  rw [block?_of_nonneg hid] at hb
  by_contra hge
  have hout : g.slots.length ≤ id.toNat := by
    unfold cap at hge
    omega
  rw [List.getElem?_eq_none hout] at hb
  cases hb

theorem has_modifyBlock (g : Graph) (id j : BlockId) (f : Block → Block) :
    (g.modifyBlock id f).has j = g.has j := by
  unfold has
  rw [block?_modifyBlock]
  split <;> simp

theorem block?_addBlock (g : Graph) (name : String) (id : Int) :
    (g.addBlock name).block? id =
      if id = g.cap then
        some { id := g.cap, name := if name = "" then "b" ++ toString g.nextBlock else name }
      else g.block? id := by
  unfold addBlock block? cap nextBlock
  by_cases hid : id < 0
  · have : id ≠ (g.slots.length : Int) := by omega
    simp [hid, this]
  · simp only [hid, if_false, List.getElem?_append]
    by_cases hlt : id.toNat < g.slots.length
    · have : id ≠ (g.slots.length : Int) := by omega
      simp [hlt, this]
    · by_cases heq : id = (g.slots.length : Int)
      · simp [heq]
      · have hout : id.toNat - g.slots.length ≠ 0 := by omega
        simp [hlt, heq, hout]

theorem has_addBlock (g : Graph) (name : String) (j : Int) :
    (g.addBlock name).has j = true ↔ j = g.cap ∨ g.has j = true := by
  unfold has
  rw [block?_addBlock]
  by_cases hj : j = (g.cap : Int) <;> simp [hj]

theorem append_eq {g : Graph} {id : BlockId} (a : Action) (hlive : g.has id = true) :
    g.append id a =
      { g.modifyBlock id (fun b => { b with code := b.code ++ [g.instrFor b a] }) with
        nextValue := g.nextValue + 1 } :=
  if_pos hlive

namespace Housed

theorem new (name : String) : Housed { name := name } := by
  refine ⟨List.nodup_nil, fun id => ?_, .inr ⟨rfl, rfl⟩⟩
  simp [has, block?]

variable {g : Graph} (h : g.Housed)

include h

theorem addBlock (name : String) : (g.addBlock name).Housed := by
  have hhas := has_addBlock g name
  refine ⟨?_, fun j => ?_, ?_⟩
  · -- the number of the new block is above all that are listed
    show (g.order ++ [(g.cap : Int)]).Nodup
    rw [List.nodup_append]
    refine ⟨h.nodup, List.nodup_singleton _, fun a ha b hb => ?_⟩
    rw [List.mem_singleton.mp hb]
    exact Int.ne_of_lt (lt_cap_of_has ((h.listed a).mp ha)).2
  · show j ∈ g.order ++ [(g.cap : Int)] ↔ _
    rw [List.mem_append, List.mem_singleton, hhas, h.listed j]
    exact or_comm
  · left
    rcases h.entry with ⟨e, he, hl⟩ | ⟨he, -⟩
    · exact ⟨e, by simp [Graph.addBlock, he], (hhas e).mpr (.inr hl)⟩
    · exact ⟨g.cap, by simp [Graph.addBlock, he, nextBlock, cap], (hhas g.cap).mpr (.inl rfl)⟩

/-- What is written into a block does not matter to the slots. -/
theorem modifyBlock (id : BlockId) (f : Block → Block) : (g.modifyBlock id f).Housed := by
  refine ⟨?_, fun j => ?_, ?_⟩
  · rw [modifyBlock_order]
    exact h.nodup
  · rw [modifyBlock_order, has_modifyBlock]
    exact h.listed j
  · rw [modifyBlock_entry, modifyBlock_cap]
    simp only [has_modifyBlock]
    exact h.entry

theorem append (id : BlockId) (a : Action) : (g.append id a).Housed := by
  unfold Graph.append
  split
  · have hw := h.modifyBlock id fun b => { b with code := b.code ++ [g.instrFor b a] }
    exact ⟨hw.nodup, hw.listed, hw.entry⟩
  · exact h

theorem moveEntry {id : BlockId} (hlive : g.has id = true) :
    Housed { g with entry := some id } :=
  ⟨h.nodup, h.listed, .inl ⟨id, rfl, hlive⟩⟩

theorem dropBlock {id : BlockId} (hlive : g.has id = true) (hentry : g.entry ≠ some id) :
    (g.dropBlock id).Housed := by
  have hhas := has_dropBlock hlive
  refine ⟨h.nodup.erase id, fun j => ?_, ?_⟩
  · rw [hhas, ← h.listed j]
    exact h.nodup.mem_erase_iff
  · -- the entry is another block, which is still there
    rcases h.entry with ⟨e, he, hl⟩ | ⟨-, hzero⟩
    · refine .inl ⟨e, he, (hhas e).mpr ⟨?_, hl⟩⟩
      rintro rfl
      exact hentry he
    · have := lt_cap_of_has hlive
      omega

end Housed

/-! ## The edits that all others are made of -/

theorem advances_modifyBlock (g : Graph) (id : BlockId) {f : Block → Block}
    (hf : ∀ b, (f b).Within b) : g.Advances (g.modifyBlock id f) := by
  intro h
  have hblock := fun j => block?_modifyBlock g id j f
  -- a block of the new graph is within the one that was in its slot
  have hwithin : ∀ j b', (g.modifyBlock id f).block? j = some b' →
      ∃ b, g.block? j = some b ∧ b'.Within b := by
    intro j b' hb'
    rw [hblock] at hb'
    split at hb'
    · obtain ⟨b, hb, rfl⟩ := Option.map_eq_some_iff.mp hb'
      exact ⟨b, hb, hf b⟩
    · exact ⟨b', hb', rfl, rfl, List.Sublist.refl _⟩
  have hids : ((g.modifyBlock id f).instrs.map (·.id)).Sublist (g.instrs.map (·.id)) := by
    rw [map_id_instrs, map_id_instrs, modifyBlock_order]
    apply List.Sublist.flatMap_right
    intro j _
    unfold valuesIn
    rw [hblock]
    split
    · cases g.block? j with
      | none => exact List.Sublist.refl _
      | some b => exact (hf b).ids
    · exact List.Sublist.refl _
  obtain ⟨hdistinct, hnumbered⟩ := h.of_sublist _ (modifyBlock_nextValue g id f) hids
  refine ⟨⟨h.toHoused.modifyBlock id f, ?_, ?_, hdistinct, hnumbered, ?_⟩, ?_, ?_⟩
  · rw [modifyBlock_order]
    exact h.ascending
  · intro j b' hb'
    obtain ⟨b, hb, hw⟩ := hwithin j b' hb'
    rw [hw.id, hw.owner]
    exact h.owned j b hb
  · intro j b' hb'
    obtain ⟨b, hb, hw⟩ := hwithin j b' hb'
    exact hw.places (h.placed j b hb)
  · exact Nat.le_of_eq (modifyBlock_cap g id f).symm
  · intro j _ hdead
    rw [has_modifyBlock]
    exact hdead

theorem advances_moveEntry (g : Graph) {id : BlockId} (hlive : g.has id = true) :
    g.Advances { g with entry := some id } := by
  intro h
  exact ⟨⟨h.toHoused.moveEntry hlive, h.ascending, h.owned, h.distinct, h.numbered, h.placed⟩,
    Nat.le_refl _, fun _ _ hdead => hdead⟩

theorem advances_dropBlock (g : Graph) {id : BlockId} (hlive : g.has id = true)
    (hentry : g.entry ≠ some id) : g.Advances (g.dropBlock id) := by
  intro h
  obtain ⟨b, hb⟩ := has_iff.mp hlive
  have hblock := block?_dropBlock (g := g) (nonneg_of_block? hb)
  have hcap : (g.dropBlock id).cap = g.cap := by simp [cap, dropBlock]
  have hhas := has_dropBlock hlive
  have hold : ∀ j b', (g.dropBlock id).block? j = some b' → g.block? j = some b' := by
    intro j b' hb'
    rw [hblock] at hb'
    split at hb'
    · cases hb'
    · exact hb'
  have hids : ((g.dropBlock id).instrs.map (·.id)).Sublist (g.instrs.map (·.id)) := by
    rw [map_id_instrs, map_id_instrs]
    refine .trans ?_ ((List.erase_sublist (a := id)).flatMap g.valuesIn)
    apply List.Sublist.flatMap_right
    intro j _
    unfold valuesIn
    rw [hblock]
    split
    · exact List.nil_sublist _
    · exact List.Sublist.refl _
  obtain ⟨hdistinct, hnumbered⟩ := h.of_sublist (g.dropBlock id) rfl hids
  refine ⟨⟨h.toHoused.dropBlock hlive hentry, ?_, ?_, hdistinct, hnumbered, ?_⟩, ?_, ?_⟩
  · exact h.ascending.sublist List.erase_sublist
  · exact fun j b' hb' => h.owned j b' (hold j b' hb')
  · exact fun j b' hb' => h.placed j b' (hold j b' hb')
  · exact Nat.le_of_eq hcap.symm
  · intro j _ hdead
    rw [← Bool.not_eq_true, hhas, hdead]
    simp

theorem advances_addBlock (g : Graph) (name : String) : g.Advances (g.addBlock name) := by
  intro h
  have hblock := block?_addBlock g name
  have hcap : (g.addBlock name).cap = g.cap + 1 := by simp [cap, addBlock]
  have hhas := has_addBlock g name
  have hids : ((g.addBlock name).instrs.map (·.id)).Sublist (g.instrs.map (·.id)) := by
    -- the new block has no instructions, so the numbers are those that there were
    have hvalues : ∀ j, (g.addBlock name).valuesIn j =
        if j = (g.cap : Int) then [] else g.valuesIn j := by
      intro j
      unfold valuesIn
      rw [hblock]
      split <;> rfl
    have horder : (g.addBlock name).order = g.order ++ [(g.cap : Int)] := rfl
    rw [map_id_instrs, map_id_instrs, horder, List.flatMap_append]
    simp only [hvalues, List.flatMap_singleton, if_true, List.append_nil]
    apply List.Sublist.flatMap_right
    intro j _
    rw [hvalues]
    split
    · exact List.nil_sublist _
    · exact List.Sublist.refl _
  obtain ⟨hdistinct, hnumbered⟩ := h.of_sublist (g.addBlock name) rfl hids
  refine ⟨⟨h.toHoused.addBlock name, ?_, ?_, hdistinct, hnumbered, ?_⟩, ?_, ?_⟩
  · show (g.order ++ [(g.cap : Int)]).Pairwise (· < ·)
    rw [List.pairwise_append]
    refine ⟨h.ascending, List.pairwise_singleton _ _, ?_⟩
    intro a ha b hb
    rw [List.mem_singleton] at hb
    subst hb
    exact (lt_cap_of_has ((h.listed a).mp ha)).2
  · intro j b hb
    rw [hblock] at hb
    split at hb
    · rename_i hj
      cases hb
      exact ⟨hj.symm, rfl⟩
    · exact h.owned j b hb
  · intro j b hb
    rw [hblock] at hb
    split at hb
    · cases hb
      simp
    · exact h.placed j b hb
  · rw [hcap]
    exact Nat.le_succ _
  · intro j hlt hdead
    rw [← Bool.not_eq_true, hhas, hdead]
    rintro (hj | hj)
    · exact Nat.ne_of_lt hlt (Int.ofNat_inj.mp hj)
    · cases hj

theorem append_order {g : Graph} {id : BlockId} (a : Action) (hlive : g.has id = true) :
    (g.append id a).order = g.order := by
  rw [append_eq a hlive]
  exact modifyBlock_order ..

theorem block?_append {g : Graph} {id : BlockId} (a : Action) (hlive : g.has id = true)
    (j : BlockId) :
    (g.append id a).block? j =
      if j = id then (g.block? j).map fun b => { b with code := b.code ++ [g.instrFor b a] }
      else g.block? j := by
  rw [append_eq a hlive]
  exact block?_modifyBlock g id j _

/-- The number that an instruction gets is in its block then, and all others are as before. -/
theorem valuesIn_append {g : Graph} {id : BlockId} (a : Action) (hlive : g.has id = true)
    (j : BlockId) :
    (g.append id a).valuesIn j = g.valuesIn j ++ if j = id then [g.nextValue] else [] := by
  unfold valuesIn
  rw [block?_append a hlive]
  by_cases hj : j = id
  · obtain ⟨b, hb⟩ := has_iff.mp hlive
    simp [hj, hb, instrFor]
  · simp [hj]

/-- An instruction adds the next number to those that there were. -/
theorem Orderly.perm_append {g : Graph} (h : g.Orderly) {id : BlockId} (a : Action)
    (hlive : g.has id = true) :
    ((g.append id a).instrs.map (·.id)).Perm (g.instrs.map (·.id) ++ [g.nextValue]) := by
  -- the block is listed once, so the number comes once
  have honce : (g.order.flatMap fun j => if j = id then [g.nextValue] else []) =
      [g.nextValue] := by
    obtain ⟨before, after, ho⟩ := List.append_of_mem ((h.listed id).mpr hlive)
    have hn := h.nodup
    rw [ho] at hn ⊢
    have hnot := (List.nodup_cons.mp (List.nodup_middle.mp hn)).1
    rw [List.mem_append, not_or] at hnot
    have hnil : ∀ l : List BlockId, id ∉ l →
        (l.flatMap fun j => if j = id then [g.nextValue] else []) = [] := by
      intro l hl
      rw [List.flatMap_eq_nil_iff]
      intro j hj
      apply if_neg
      rintro rfl
      exact hl hj
    rw [List.flatMap_append, List.flatMap_cons, hnil before hnot.1, hnil after hnot.2]
    simp
  have hperm := List.flatMap_append_perm g.order g.valuesIn
    fun j => if j = id then [g.nextValue] else []
  rw [honce] at hperm
  rw [map_id_instrs, map_id_instrs, append_order a hlive, funext (valuesIn_append a hlive)]
  exact hperm.symm

theorem advances_append (g : Graph) {id : BlockId} (a : Action) (hlive : g.has id = true) :
    g.Advances (g.append id a) := by
  intro h
  have horder := append_order a hlive
  have hcap : (g.append id a).cap = g.cap := by
    rw [append_eq a hlive]
    exact modifyBlock_cap ..
  have hnext : (g.append id a).nextValue = g.nextValue + 1 := by rw [append_eq a hlive]
  have hhas : ∀ j, (g.append id a).has j = g.has j := by
    intro j
    rw [append_eq a hlive]
    exact has_modifyBlock ..
  have hids := h.perm_append a hlive
  have hold : ∀ v ∈ g.instrs.map (·.id), v < g.nextValue := by
    intro v hv
    obtain ⟨i, hi, rfl⟩ := List.mem_map.mp hv
    exact h.numbered i hi
  refine ⟨⟨h.toHoused.append id a, ?_, ?_, ?_, ?_, ?_⟩, ?_, ?_⟩
  · rw [horder]
    exact h.ascending
  · intro j b' hb'
    rw [block?_append a hlive] at hb'
    split at hb'
    · obtain ⟨b, hb, rfl⟩ := Option.map_eq_some_iff.mp hb'
      exact h.owned j b hb
    · exact h.owned j b' hb'
  · rw [hids.nodup_iff, List.nodup_append]
    refine ⟨h.distinct, List.nodup_singleton _, ?_⟩
    intro v hv w hw
    rw [List.mem_singleton.mp hw]
    exact Int.ne_of_lt (hold v hv)
  · intro i hi
    rw [hnext]
    have hmem := hids.subset (List.mem_map_of_mem hi)
    rcases List.mem_append.mp hmem with hmem | hmem
    · exact Int.lt_add_one_of_le (Int.le_of_lt (hold _ hmem))
    · rw [List.mem_singleton.mp hmem]
      exact Int.lt_succ _
  · intro j b' hb' i hi
    rw [block?_append a hlive] at hb'
    split at hb'
    · obtain ⟨b, hb, rfl⟩ := Option.map_eq_some_iff.mp hb'
      rcases List.mem_append.mp hi with hi | hi
      · exact h.placed j b hb i hi
      · rw [List.mem_singleton.mp hi]
        exact (h.owned j b hb).1
    · exact h.placed j b' hb' i hi
  · exact Nat.le_of_eq hcap.symm
  · intro j _ hdead
    rw [hhas]
    exact hdead

/-! ## What is made of them -/

theorem advances_setEntry {g g' : Graph} {id : BlockId} (h : g.setEntry id = .ok g') :
    g.Advances g' := by
  unfold setEntry at h
  split at h
  · rename_i hlive
    cases h
    exact g.advances_moveEntry hlive
  · cases h

theorem advances_removeBlock {g g' : Graph} {id : BlockId} (h : g.removeBlock id = .ok g') :
    g.Advances g' := by
  -- of the four things that are asked, two matter here
  obtain ⟨hfault, rfl⟩ := removeBlock_eq_ok.mp h
  obtain ⟨hlive, hentry, -, -⟩ := removalFault?_eq_none.mp hfault
  exact g.advances_dropBlock hlive hentry

theorem advances_redirect (g : Graph) (old new : BlockId) : g.Advances (g.redirect old new) := by
  have hfold : ∀ (ids : List BlockId) (g : Graph),
      g.Advances (ids.foldl (fun g p => g.redirectFrom old new p) g) := by
    intro ids
    induction ids with
    | nil => exact .refl
    | cons p ids ih =>
      intro g
      exact (g.advances_modifyBlock p (Block.within_redirectTerminator old new)).trans (ih _)
  exact hfold (g.predecessors old) g

theorem advances_removeAll (g : Graph) (ids : List BlockId) :
    g.Advances (g.removeAll ids).graph := by
  induction ids generalizing g with
  | nil => exact .refl g
  | cons id ids ih =>
    unfold removeAll
    split
    · exact .refl g
    · rename_i left hleft
      exact (advances_removeBlock hleft).trans (ih left)

theorem advances_clearAll {g g' : Graph} {ids : List BlockId} (h : g.clearAll ids = some g') :
    g.Advances g' := by
  induction ids generalizing g with
  | nil =>
    cases h
    exact .refl g'
  | cons id ids ih =>
    unfold clearAll at h
    split at h
    · exact (g.advances_modifyBlock id Block.within_clear).trans (ih h)
    · cases h

/-- The graph that the elimination has after a look, whether it goes on or fails. -/
def Bypass.after : Except (Bypass × PassError) Bypass → Graph
  | .ok s => s.graph
  | .error (s, _) => s.graph

theorem advances_take (s : Bypass) (b : Block) (target : BlockId) :
    s.graph.Advances (Bypass.after ((s.take b target).map (·.1))) := by
  have hredirect := s.graph.advances_redirect b.id target
  unfold Bypass.take
  dsimp only
  split
  · split
    · exact hredirect
    · rename_i g hg
      exact hredirect.trans (advances_setEntry hg)
  · exact hredirect

theorem advances_scan (s : Bypass) (ids : List BlockId) :
    s.graph.Advances (Bypass.after (s.scan ids)) := by
  fun_induction Bypass.scan s ids with
  | case1 s => exact .refl s.graph
  | case2 s id rest hb ih => exact ih
  | case3 s id rest b hb hi ih => exact ih
  | case4 s id rest b hb i hi ht ih => exact ih
  | case5 s id rest b hb i hi target ht hself e he =>
    have := advances_take s b target
    rw [he] at this
    exact this
  | case6 s id rest b hb i hi target ht hself s' hs ih =>
    have := advances_take s b target
    rw [hs] at this
    exact this.trans ih
  | case7 s id rest b hb i hi target ht hself s' hs =>
    have := advances_take s b target
    rw [hs] at this
    exact this
  | case8 s id rest b hb i hi hts => exact .refl s.graph

theorem result_state (r : Removal) (step : PassStep) (changed : Bool) :
    (r.result step changed).state = r.graph := by
  unfold Removal.result
  split <;> rfl

theorem advances_eliminateEmpty (g : Graph) : g.Advances g.eliminateEmpty.state := by
  have hscan := advances_scan { graph := g } g.order
  unfold eliminateEmpty
  split
  · exact .refl g
  · split
    · rename_i hs
      rw [hs] at hscan
      exact hscan
    · rename_i s hs
      rw [hs] at hscan
      rw [result_state]
      exact hscan.trans (advances_removeAll s.graph s.removed)

theorem advances_eliminateUnreachable (g : Graph) :
    g.Advances g.eliminateUnreachable.state := by
  unfold eliminateUnreachable
  split
  · exact .refl g
  split
  · exact .refl g
  split
  · exact .refl g
  split
  · exact .refl g
  rename_i dead _
  split
  · exact .refl g
  · rename_i cleared hcleared
    rw [result_state]
    exact (advances_clearAll hcleared).trans (advances_removeAll cleared dead)

end Graph

/-! ## Runs of edits -/

/-- What can be asked of a graph. -/
inductive Edit where
  | addBlock (name : String)
  | append (id : BlockId) (a : Action)
  | setEntry (id : BlockId)
  -- redirect the instruction at a place of a block
  | redirectAt (id : BlockId) (place : Nat) (old new : BlockId)
  | removeBlock (id : BlockId)
  -- call the elimination of blocks that only pass a run on
  | eliminateEmpty
  | eliminateUnreachable

/-- What a pass leaves when it comes to an end, well or not. -/
def PassResult.ended? {σ : Type} (r : PassResult σ) : Option σ :=
  if r.error = some .crash then none else some r.state

namespace Edit

/-- The graph that an edit leaves, whether it was done or refused. There is none where the
edit does not come to an end, as with an action for a block that is not there. -/
def leaves? (g : Graph) : Edit → Option Graph
  | addBlock name => some (g.addBlock name)
  | append id a => if g.has id then some (g.append id a) else none
  | setEntry id => some ((g.setEntry id).toOption.getD g)
  | redirectAt id place old new => some (g.modifyBlock id (Block.redirectAt place old new))
  | removeBlock id => some ((g.removeBlock id).toOption.getD g)
  | eliminateEmpty => g.eliminateEmpty.ended?
  | eliminateUnreachable => g.eliminateUnreachable.ended?

/-- The graph that edits leave, made one after the other. -/
def run? (g : Graph) (es : List Edit) : Option Graph := es.foldlM leaves? g

theorem advances_ended {g g' : Graph} {r : PassResult Graph} (hr : g.Advances r.state)
    (h : r.ended? = some g') : g.Advances g' := by
  unfold PassResult.ended? at h
  split at h
  · cases h
  · cases h
    exact hr

/-- Every edit keeps the invariant and fills no slot again, one way of asking at a time. -/
theorem advances {g g' : Graph} {e : Edit} (h : e.leaves? g = some g') : g.Advances g' := by
  cases e with
  | addBlock name =>
    cases h
    exact g.advances_addBlock name
  | append id a =>
    simp only [leaves?] at h
    split at h
    · rename_i hlive
      cases h
      exact g.advances_append a hlive
    · cases h
  | setEntry id =>
    cases h
    cases hset : g.setEntry id with
    | error v => exact .refl g
    | ok left => exact Graph.advances_setEntry hset
  | redirectAt id place old new =>
    cases h
    exact g.advances_modifyBlock id (Block.within_redirectAt place old new)
  | removeBlock id =>
    cases h
    cases hremove : g.removeBlock id with
    | error v => exact .refl g
    | ok left => exact Graph.advances_removeBlock hremove
  | eliminateEmpty => exact advances_ended g.advances_eliminateEmpty h
  | eliminateUnreachable => exact advances_ended g.advances_eliminateUnreachable h

theorem advances_run {g g' : Graph} {es : List Edit} (h : run? g es = some g') :
    g.Advances g' := by
  unfold run? at h
  induction es generalizing g with
  | nil =>
    cases h
    exact .refl g'
  | cons e es ih =>
    rw [List.foldlM_cons] at h
    obtain ⟨left, hleft, hrest⟩ := Option.bind_eq_some_iff.mp h
    exact (advances hleft).trans (ih hrest)

theorem orderly_new (name : String) : Graph.Orderly { name := name } := by
  have hnone : ∀ id, ({ name := name } : Graph).block? id = none := by
    intro id
    unfold Graph.block?
    split <;> rfl
  constructor
  case toHoused => exact .new name
  case ascending => exact List.Pairwise.nil
  case owned => simp [hnone]
  case distinct => exact List.nodup_nil
  case numbered => simp [Graph.instrs, Graph.blocks]
  case placed => simp [hnone]

/-- Whatever edits are made of a new graph, done or refused, its slots, its order, its
entry and its numbers agree. Whatever edits are made after that, the slots only become
more, and a block that is gone does not come back. -/
theorem every_run_of_edits_leaves_the_slots_in_order (name : String) (es later : List Edit)
    (g g' : Graph) (hrun : run? { name := name } es = some g) (hlater : run? g later = some g') :
    g.Orderly ∧ g'.Orderly ∧ g.Ages g' := by
  have hg : g.Orderly := (advances_run hrun (orderly_new name)).1
  obtain ⟨hg', hages⟩ := advances_run hlater hg
  exact ⟨hg, hg', hages⟩

/-- Edits with an elimination that fails midway: it led all branches past the second block
and then met a branch with two targets. So that block can be removed, but only once. -/
def stumble : List Edit :=
  [.addBlock "in", .addBlock "hop", .addBlock "",
   .append 0 (.const 1), .append 0 (.br 1), .append 1 (.br 2),
   .append 2 { op := .br, args := [.block 0, .block 1] },
   .eliminateEmpty, .removeBlock 0, .setEntry 9, .redirectAt 2 0 2 0,
   .removeBlock 1, .removeBlock 1]

/-- What the edits of `stumble` leave. -/
def stumbled : Graph where
  name := "f"
  slots :=
    [some { id := 0, name := "in",
            code := [{ op := .const, imm := 1, id := 0, block := 0 },
                     { op := .br, args := [.block 2], id := 1, block := 0 }] },
     none,
     some { id := 2, name := "b2",
            code := [{ op := .br, args := [.block 0, .block 0], id := 3, block := 2 }] }]
  order := [0, 2]
  entry := some 0
  nextValue := 4

theorem a_run_that_stumbles_leaves_the_slots_in_order :
    run? { name := "f" } stumble = some stumbled ∧ stumbled.Orderly ∧
    ∃ g', run? stumbled [.addBlock "", .append 3 (.ret []), .eliminateUnreachable] = some g' ∧
      g'.cap = 4 ∧ g'.order = [0, 2] ∧ g'.Orderly ∧ stumbled.Ages g' := by
  have hrun : run? { name := "f" } stumble = some stumbled := by decide +kernel
  have hlater : (run? stumbled [.addBlock "", .append 3 (.ret []), .eliminateUnreachable]).map
      (fun g => (g.cap, g.order)) = some (4, [0, 2]) := by decide +kernel
  obtain ⟨g', hg', hshape⟩ := Option.map_eq_some_iff.mp hlater
  obtain ⟨hcap, horder⟩ := Prod.mk.inj hshape
  obtain ⟨hg, hkept, hages⟩ :=
    every_run_of_edits_leaves_the_slots_in_order "f" stumble _ stumbled g' hrun hg'
  exact ⟨hrun, hg, g', hg', hcap, horder, hkept, hages⟩

end Edit

end FlowGraph
