import FlowGraph.Pass
import FlowGraph.Proofs.WellFormed

/-!
The edits of the passes on well-formed graphs. Redirecting all branches to a
block passes every block through one map, a map that stays inside keeps the
graph well formed, and blocks that nothing names can be taken out in a row.
-/

namespace FlowGraph

/-! ## Edits that keep a graph well formed -/

theorem Instr.Fits.retarget {i : Instr} (h : i.Fits) (f : BlockId → BlockId) :
    (i.retarget f).Fits := by
  unfold Action.Fits at h ⊢
  simp only [Instr.retarget]
  split at h
  · obtain ⟨t, ht⟩ := h
    exact ⟨f t, by simp [ht, Operand.retarget]⟩
  · obtain ⟨c, yes, no, ht⟩ := h
    exact ⟨c, f yes, f no, by simp [ht, Operand.retarget]⟩
  · rcases h with ht | ⟨v, ht⟩
    · exact .inl (by simp [ht])
    · exact .inr ⟨v, by simp [ht, Operand.retarget]⟩
  · cases h
  · obtain ⟨vs, ht⟩ := h
    exact ⟨vs, by simp [ht, Operand.retarget]⟩

theorem Block.FitsIn.retarget {b : Block} {id : BlockId} {order : List BlockId}
    (h : b.FitsIn id order) {f : BlockId → BlockId} (hf : ∀ t ∈ order, f t ∈ order) :
    (b.retarget f).FitsIn id order := by
  refine ⟨h.id_eq, h.holder, Block.retarget_ends h.ends, ?_, ?_, ?_⟩
  · intro i hi
    obtain ⟨j, hj, rfl⟩ := List.mem_map.mp hi
    exact h.own j hj
  · intro i hi
    obtain ⟨j, hj, rfl⟩ := List.mem_map.mp hi
    exact Instr.Fits.retarget (h.fits j hj) f
  · intro i hi t ht
    obtain ⟨j, hj, rfl⟩ := List.mem_map.mp hi
    rw [Instr.retarget_targets] at ht
    obtain ⟨u, hu, rfl⟩ := List.mem_map.mp ht
    exact hf u (h.inside j hj u hu)

namespace Graph

theorem WellFormed.retarget {g : Graph} (h : g.WellFormed) {f : BlockId → BlockId}
    (hf : ∀ t ∈ g.order, f t ∈ g.order) : (g.retarget f).WellFormed := by
  refine ⟨h.nodup, ?_, h.entry⟩
  intro id hid
  have hid' : id ∈ g.order := hid
  obtain ⟨b, hb, hfits⟩ := h.block id hid'
  refine ⟨b.retarget f, ?_, hfits.retarget hf⟩
  rw [block?_retarget]
  simp [hid', hb]

/-- Making every branch to `old` into one to `new` passes all blocks through one map. -/
theorem WellFormed.redirect_eq {g : Graph} (h : g.WellFormed) (old new : BlockId) :
    g.redirect old new = g.retarget (divert old new) := by
  unfold redirect redirectFrom
  obtain ⟨h1, h2, h3, h4, h5⟩ :=
    foldl_modifyBlock_fields (Block.redirectTerminator old new) (g.predecessors old) g
  refine ext_block? h1 h2 h3 h4 (by rw [h5, retarget_cap]) ?_
  intro id
  have hn : (g.predecessors old).Nodup := h.nodup.filter _
  rw [block?_foldl_modifyBlock _ _ _ hn, block?_retarget]
  by_cases hid : id ∈ g.order
  · obtain ⟨b, hb, hfits⟩ := h.block id hid
    have hpred : id ∈ g.predecessors old ↔ old ∈ b.targets := by
      simp [predecessors, hid, successors_eq hb]
    simp only [hpred, hid, if_true, hb, Option.map_some]
    split
    · rw [Block.redirectTerminator_eq hfits.ends hfits.tidy]
    · -- a block that does not branch to `old` is the same after the map
      rename_i hno
      rw [Block.retarget_eq_self]
      intro i hi t ht
      have htb : t ∈ b.targets := (Block.mem_targets hfits.ends hfits.tidy).mpr ⟨i, hi, ht⟩
      have hne : t ≠ old := by rintro rfl; exact hno htb
      simp [divert, hne]
  · have hpred : id ∉ g.predecessors old := by simp [predecessors, hid]
    simp [hpred, hid]

theorem WellFormed.without {g : Graph} (h : g.WellFormed) {ids : List BlockId}
    (he : ∀ e, g.entry = some e → e ∉ ids)
    (ht : ∀ id ∈ g.order, id ∉ ids → ∀ t ∈ g.successors id, t ∉ ids) :
    (g.without ids).WellFormed := by
  refine ⟨h.nodup.filter _, ?_, ?_⟩
  · intro id hid
    obtain ⟨hid, hout⟩ := mem_without_order.mp hid
    obtain ⟨b, hb, hf⟩ := h.block id hid
    refine ⟨b, by simp [block?_without, hout, hb], ?_⟩
    refine ⟨hf.id_eq, hf.holder, hf.ends, hf.own, hf.fits, ?_⟩
    intro i hi t hit
    have htb : t ∈ b.targets := (Block.mem_targets hf.ends hf.tidy).mpr ⟨i, hi, hit⟩
    refine mem_without_order.mpr ⟨hf.inside i hi t hit, ?_⟩
    exact ht id hid hout t (by rwa [successors_eq hb])
  · obtain ⟨e, hem, hee⟩ := h.entry
    exact ⟨e, mem_without_order.mpr ⟨hem, he e hee⟩, hee⟩

theorem WellFormed.setEntry {g : Graph} (h : g.WellFormed) {id : BlockId} (hid : id ∈ g.order) :
    ({ g with entry := some id } : Graph).WellFormed :=
  ⟨h.nodup, h.block, id, hid, rfl⟩

/-! ## Taking out blocks one after the other -/

/-- A block that is listed, not the entry and named by no instruction is removed. -/
theorem removeBlock_eq {g : Graph} {id e : BlockId} (hn : g.order.Nodup) (hid : id ∈ g.order)
    (hlive : g.has id = true) (he : g.entry = some e) (hem : e ∈ g.order) (hne : e ≠ id)
    (href : ∀ i ∈ g.instrs, id ∉ i.targets) : g.removeBlock id = .ok (g.without [id]) := by
  have hlen : g.order.length ≠ 1 := by
    intro hl
    obtain ⟨x, hx⟩ := List.length_eq_one_iff.mp hl
    rw [hx, List.mem_singleton] at hid hem
    exact hne (hem.trans hid.symm)
  obtain ⟨b, hb⟩ := has_iff.mp hlive
  rw [removeBlock_eq_ok, dropBlock_eq_without (nonneg_of_block? hb) hn]
  exact ⟨removalFault?_eq_none.mpr ⟨hlive, by simpa [he] using hne, hlen, href⟩, rfl⟩

theorem instrs_without {g : Graph} {ids : List BlockId} {i : Instr}
    (h : i ∈ (g.without ids).instrs) : i ∈ g.instrs := by
  obtain ⟨id, hid, b, hb, hi⟩ := mem_instrs.mp h
  obtain ⟨hid, hout⟩ := mem_without_order.mp hid
  rw [block?_without] at hb
  simp only [hout, if_false] at hb
  exact mem_instrs.mpr ⟨id, hid, b, hb, hi⟩

/-- Blocks that no instruction names are all removed. -/
theorem removeAll_eq (ids : List BlockId) {g : Graph} {e : BlockId} (hn : g.order.Nodup)
    (hids : ids.Nodup) (hlive : ∀ id ∈ ids, id ∈ g.order ∧ g.has id = true)
    (he : g.entry = some e) (hem : e ∈ g.order) (hout : e ∉ ids)
    (href : ∀ i ∈ g.instrs, ∀ t ∈ i.targets, t ∉ ids) :
    (g.removeAll ids).graph = g.without ids ∧ (g.removeAll ids).refused = none := by
  induction ids generalizing g with
  | nil => exact ⟨(without_nil g).symm, rfl⟩
  | cons id ids ih =>
    obtain ⟨hnot, hids⟩ := List.nodup_cons.mp hids
    obtain ⟨hid, hhas⟩ := hlive id (List.mem_cons_self ..)
    obtain ⟨hne, hout⟩ := List.ne_and_not_mem_of_not_mem_cons hout
    have hstep : g.removeBlock id = .ok (g.without [id]) :=
      removeBlock_eq hn hid hhas he hem hne
        (fun i hi ht => href i hi id ht (List.mem_cons_self ..))
    have hrest := ih (g := g.without [id]) (hn.filter _) hids
      (by
        intro j hj
        obtain ⟨hjm, hjh⟩ := hlive j (List.mem_cons_of_mem _ hj)
        have hji : j ∉ [id] := by
          rw [List.mem_singleton]
          rintro rfl
          exact hnot hj
        refine ⟨mem_without_order.mpr ⟨hjm, hji⟩, ?_⟩
        obtain ⟨b, hb⟩ := has_iff.mp hjh
        exact has_iff.mpr ⟨b, by rw [block?_without, if_neg hji, hb]⟩)
      he (mem_without_order.mpr ⟨hem, by simpa using hne⟩) hout
      (fun i hi t ht htm => href i (instrs_without hi) t ht (List.mem_cons_of_mem _ htm))
    unfold removeAll
    rw [hstep]
    refine ⟨?_, hrest.2⟩
    show (removeAll (g.without [id]) ids).graph = _
    rw [hrest.1, without_without]
    rfl

end Graph

end FlowGraph
