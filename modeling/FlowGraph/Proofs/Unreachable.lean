import Mathlib.Data.List.Perm.Subperm
import FlowGraph.Pass.Unreachable
import FlowGraph.Proofs.Edits
import FlowGraph.Proofs.Reach

/-!
The law of the elimination of unreachable blocks. On a well-formed graph it
takes out the listed blocks that no path reaches, leaves all else as it was,
and says that it changed the graph when there was such a block.
-/

namespace FlowGraph

/-! ## The dead blocks -/

/-- Keys added one after the other are all in the set. -/
theorem KeySet.foldlM_insert? (ks : List Int) (s : KeySet) (hn : ∀ k ∈ ks, 0 ≤ k) :
    ∃ r, ks.foldlM KeySet.insert? s = some r ∧
      ∀ j, r.contains j = true ↔ s.contains j = true ∨ j ∈ ks := by
  induction ks generalizing s with
  | nil => exact ⟨s, rfl, by simp⟩
  | cons k ks ih =>
    obtain ⟨t, ht⟩ := KeySet.insert?_isSome (s := s) (hn k (List.mem_cons_self ..))
    obtain ⟨r, hr, hc⟩ := ih t (fun j hj => hn j (List.mem_cons_of_mem _ hj))
    refine ⟨r, by rw [List.foldlM_cons, ht]; exact hr, ?_⟩
    intro j
    rw [hc, KeySet.contains_insert? ht]
    by_cases hj : j = k <;> simp [hj]

namespace Graph

/-- As many blocks are reached as there are when all of them are. -/
theorem WellFormed.size_reached {g : Graph} (h : g.WellFormed) {reached : KeySet}
    (hr : ∀ b, reached.contains b = true → b ∈ g.order) :
    reached.size = g.order.length ↔ ∀ b ∈ g.order, reached.contains b = true := by
  have hlen : (reached.toList.map Int.ofNat).length = reached.size := by
    rw [List.length_map, KeySet.size_eq_length]
  have hsub : reached.toList.map Int.ofNat ⊆ g.order := fun b hb => hr b (KeySet.mem_map_toList.mp hb)
  constructor
  · intro hs b hb
    have hperm := ((KeySet.map_toList_nodup reached).subperm hsub).perm_of_length_le
      (by rw [hlen, hs])
    exact KeySet.mem_map_toList.mp (hperm.mem_iff.mpr hb)
  · intro hall
    rw [← hlen]
    refine ((List.perm_ext_iff_of_nodup (KeySet.map_toList_nodup reached) h.nodup).mpr ?_).length_eq
    intro b
    exact ⟨fun hb => hsub hb, fun hb => KeySet.mem_map_toList.mpr (hall b hb)⟩

theorem WellFormed.deadBlocks? {g : Graph} (h : g.WellFormed) (reached : KeySet) :
    ∃ dead, g.deadBlocks? reached = some dead ∧ dead.Nodup ∧
      ∀ b, b ∈ dead ↔ b ∈ g.order ∧ reached.contains b = false := by
  unfold Graph.deadBlocks?
  rw [h.blocks_ids]
  obtain ⟨r, hr, hc⟩ := KeySet.foldlM_insert?
    (g.order.filter (fun id => !reached.contains id)) (KeySet.ofSize g.cap)
    (fun k hk => h.nonneg (List.mem_filter.mp hk).1)
  refine ⟨r.toList.map Int.ofNat, by simp only [hr, Option.map_some], KeySet.map_toList_nodup r, ?_⟩
  intro b
  rw [KeySet.mem_map_toList, hc]
  simp

/-! ## Clearing and taking out -/

theorem clearAll_eq (ids : List BlockId) {g : Graph} (h : ∀ id ∈ ids, g.has id = true) :
    g.clearAll ids =
      some (ids.foldl (fun g p => g.modifyBlock p (fun b => { b with code := [] })) g) := by
  induction ids generalizing g with
  | nil => rfl
  | cons id ids ih =>
    unfold clearAll
    rw [if_pos (h id (List.mem_cons_self ..)), List.foldl_cons]
    apply ih
    intro j hj
    obtain ⟨b, hb⟩ := has_iff.mp (h j (List.mem_cons_of_mem _ hj))
    rw [has_iff, block?_modifyBlock, hb]
    split
    · exact ⟨_, rfl⟩
    · exact ⟨_, rfl⟩

/-- Dead blocks with their code dropped can all be taken out. -/
theorem WellFormed.removeAll_cleared {g : Graph} (h : g.WellFormed) {dead : List BlockId}
    (hnd : dead.Nodup) (hdead : ∀ b, b ∈ dead ↔ b ∈ g.order ∧ ¬ g.Reaches b) :
    ∃ cleared, g.clearAll dead = some cleared ∧
      (cleared.removeAll dead).graph = g.without dead ∧
      (cleared.removeAll dead).refused = none := by
  have hlive : ∀ id ∈ dead, g.has id = true := by
    intro id hid
    obtain ⟨b, hb, -⟩ := h.block id ((hdead id).mp hid).1
    exact has_iff.mpr ⟨b, hb⟩
  refine ⟨_, clearAll_eq dead hlive, ?_⟩
  obtain ⟨h1, h2, h3, h4, h5⟩ :=
    foldl_modifyBlock_fields (fun b => { b with code := [] }) dead g
  have hblock := fun j =>
    block?_foldl_modifyBlock (fun b => { b with code := [] }) dead g hnd j
  generalize dead.foldl (fun g p => g.modifyBlock p (fun b => { b with code := [] })) g =
    cleared at *
  obtain ⟨e, hem, hee⟩ := h.entry
  have hout : e ∉ dead := fun hd => ((hdead e).mp hd).2 (h.reaches_entry hee)
  obtain ⟨hgraph, hrefused⟩ := removeAll_eq dead (g := cleared) (e := e) (by rw [h2]; exact h.nodup)
    hnd (by
      intro id hid
      refine ⟨by rw [h2]; exact ((hdead id).mp hid).1, ?_⟩
      obtain ⟨b, hb⟩ := has_iff.mp (hlive id hid)
      rw [has_iff, hblock id, hb]
      simp [hid])
    (by rw [h3, hee]) (by rw [h2]; exact hem) hout (by
      -- an instruction that is left is in a reached block, and so are its targets
      intro i hi t ht htd
      obtain ⟨id, hid, b, hb, hib⟩ := mem_instrs.mp hi
      rw [h2] at hid
      rw [hblock] at hb
      by_cases hd : id ∈ dead
      · obtain ⟨b', -, rfl⟩ := Option.map_eq_some_iff.mp (by simpa [hd] using hb)
        cases hib
      · rw [if_neg hd] at hb
        have hr : g.Reaches id := by
          by_contra hr
          exact hd ((hdead id).mpr ⟨hid, hr⟩)
        exact ((hdead t).mp htd).2 (h.reaches_target hr hb hib ht))
  refine ⟨?_, hrefused⟩
  rw [hgraph]
  refine ext_block? h1 ?_ h3 h4 (by rw [without_cap, without_cap, h5]) ?_
  · simp only [Graph.without, h2]
  · intro id
    rw [block?_without, block?_without, hblock]
    split <;> rfl

/-! ## The elimination -/

/-- One call takes out the listed blocks that no path reaches, and nothing else. -/
theorem WellFormed.eliminateUnreachable {g : Graph} (h : g.WellFormed) :
    ∃ dead, dead.Nodup ∧ (∀ b, b ∈ dead ↔ b ∈ g.order ∧ ¬ g.Reaches b) ∧
      g.eliminateUnreachable.state = g.without dead ∧
      g.eliminateUnreachable.changed = !dead.isEmpty ∧
      g.eliminateUnreachable.error = none := by
  obtain ⟨reached, hr, hreach⟩ := h.reachable?
  unfold Graph.eliminateUnreachable
  simp only [h.malformedBlock?, hr]
  have hsize := h.size_reached (fun b hb => h.mem_of_reaches ((hreach b).mp hb))
  by_cases hs : reached.size = g.order.length
  · refine ⟨[], List.nodup_nil, ?_, ?_⟩
    · intro b
      simp only [List.not_mem_nil, false_iff, not_and, not_not]
      intro hb
      exact (hreach b).mp (hsize.mp hs b hb)
    · rw [if_pos hs]
      exact ⟨(without_nil g).symm, rfl, rfl⟩
  · obtain ⟨dead, hdb, hnd, hmem⟩ := h.deadBlocks? reached
    have hdead : ∀ b, b ∈ dead ↔ b ∈ g.order ∧ ¬ g.Reaches b := by
      intro b
      rw [hmem, ← hreach]
      simp
    obtain ⟨cleared, hclear, hgraph, hrefused⟩ := h.removeAll_cleared hnd hdead
    refine ⟨dead, hnd, hdead, ?_⟩
    rw [if_neg hs]
    simp only [hdb, hclear]
    unfold Removal.result
    rw [hrefused]
    refine ⟨hgraph, ?_, rfl⟩
    cases dead with
    | nil =>
      -- were no block dead, as many would be reached as there are
      refine absurd (hsize.mpr fun b hb => ?_) hs
      by_contra hc
      exact List.not_mem_nil ((hmem b).mpr ⟨hb, by simpa using hc⟩)
    | cons b dead => rfl

/-- When all blocks are reached, a call leaves the graph alone. -/
theorem WellFormed.eliminateUnreachable_of_reached {g : Graph} (hwf : g.WellFormed)
    (h : ∀ b ∈ g.order, g.Reaches b) : g.eliminateUnreachable = { state := g } := by
  obtain ⟨reached, hr, hreach⟩ := hwf.reachable?
  have hsize := (hwf.size_reached (fun b hb => hwf.mem_of_reaches ((hreach b).mp hb))).mpr
    (fun b hb => (hreach b).mpr (h b hb))
  unfold Graph.eliminateUnreachable
  simp only [hwf.malformedBlock?, hr, if_pos hsize]

end Graph

end FlowGraph
