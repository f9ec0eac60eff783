import FlowGraph.Pass.Reach

/-!
The order in which the blocks of a function are lowered. A search from the
entry goes on from each block to its successors and leaves the block after
them. The block that is left last is lowered first, so a block comes after all
that dominate it.

A block is marked when it is visited, and its edges are followed only then. So
the search ends: no edge is followed twice.
-/

namespace FlowGraph.Graph

/-! ## Why the search ends -/

/-- The edges that lead out of those blocks of a list that are not marked. -/
def edgesFrom (g : Graph) (ids : List BlockId) (seen : KeySet) : List BlockId :=
  (ids.filter (fun b => !seen.contains b)).flatMap g.successors

/-- How many edges lead out of blocks that are not marked. -/
def edgesLeft (g : Graph) (seen : KeySet) : Nat :=
  (g.edgesFrom ((List.range g.cap).map Int.ofNat) seen).length

theorem edgesFrom_le (g : Graph) {seen seen' : KeySet} (h : seen ⊆ seen') (ids : List BlockId) :
    (g.edgesFrom ids seen').length ≤ (g.edgesFrom ids seen).length := by
  unfold edgesFrom
  induction ids with
  | nil => exact Nat.le_refl _
  | cons b ids ih =>
    cases hb : seen.contains b with
    | true => simpa [hb, h b hb] using ih
    | false =>
      cases hb' : seen'.contains b with
      | true =>
        simp only [List.filter_cons, hb, hb', Bool.not_true, Bool.not_false, if_true,
          Bool.false_eq_true, if_false, List.flatMap_cons, List.length_append]
        omega
      | false => simpa [hb, hb'] using ih

theorem edgesLeft_le (g : Graph) {seen seen' : KeySet} (h : seen ⊆ seen') :
    g.edgesLeft seen' ≤ g.edgesLeft seen := g.edgesFrom_le h _

/-- Only a number in range of the slots has successors. -/
theorem mem_range_of_successors {g : Graph} {b : BlockId} (h : g.successors b ≠ []) :
    b ∈ (List.range g.cap).map Int.ofNat := by
  unfold successors block? at h
  split at h
  · simp at h
  · rename_i hb
    refine List.mem_map.mpr ⟨b.toNat, List.mem_range.mpr ?_, Int.toNat_of_nonneg (Int.not_lt.mp hb)⟩
    cases Nat.lt_or_ge b.toNat g.cap with
    | inl hlt => exact hlt
    | inr hge =>
      unfold cap at hge
      simp [List.getElem?_eq_none hge] at h

/-- The edges of a block that is marked are no longer left. -/
theorem edgesLeft_mark {g : Graph} {b : BlockId} {seen seen' : KeySet}
    (h : seen.testAndInsert? b = some (false, seen')) :
    (g.successors b).length + g.edgesLeft seen' ≤ g.edgesLeft seen := by
  have hsub := KeySet.subset_of_testAndInsert? h
  obtain ⟨hold, hmarked⟩ := KeySet.testAndInsert?_spec h
  have hnew : seen'.contains b = true := by simp [hmarked]
  cases hs : g.successors b with
  | nil => simpa using g.edgesLeft_le hsub
  | cons t ts =>
    rw [← hs]
    have hmem : b ∈ (List.range g.cap).map Int.ofNat := mem_range_of_successors (by simp [hs])
    obtain ⟨before, after, hl⟩ := List.append_of_mem hmem
    have hbefore := g.edgesFrom_le hsub before
    have hafter := g.edgesFrom_le hsub after
    unfold edgesLeft edgesFrom
    unfold edgesFrom at hbefore hafter
    simp only [hl, List.filter_append, List.filter_cons, ← hold, hnew, Bool.not_true, Bool.not_false,
      if_true, Bool.false_eq_true, if_false, List.flatMap_append, List.flatMap_cons,
      List.length_append]
    omega

/-! ## The search -/

/-- Visits blocks in a row with all that they lead to, and puts each in front of
those that were left before it. A block that is marked is not visited again. A
negative number cannot be marked. -/
@[semireducible]
def leaveOrder (g : Graph) (ids : List BlockId) (seen : KeySet) (left : List BlockId) :
    Option { r : KeySet × List BlockId // seen ⊆ r.1 } :=
  match ids with
  | [] => some ⟨(seen, left), seen.subset_refl⟩
  | id :: rest =>
    match hm : seen.testAndInsert? id with
    | none => none
    | some (true, marked) => do
      let ⟨r, hr⟩ ← leaveOrder g rest marked left
      return ⟨r, KeySet.subset_trans (KeySet.subset_of_testAndInsert? hm) hr⟩
    | some (false, marked) => do
      let ⟨(inner, left), hi⟩ ← leaveOrder g (g.successors id) marked left
      let ⟨r, hr⟩ ← leaveOrder g rest inner (id :: left)
      return ⟨r, KeySet.subset_trans (KeySet.subset_of_testAndInsert? hm) (KeySet.subset_trans hi hr)⟩
termination_by g.edgesLeft seen + ids.length
decreasing_by
  · have := g.edgesLeft_le (KeySet.subset_of_testAndInsert? hm)
    simp only [List.length_cons]
    omega
  · have := edgesLeft_mark (g := g) hm
    simp only [List.length_cons]
    omega
  · have : g.edgesLeft inner ≤ g.edgesLeft seen :=
      g.edgesLeft_le (KeySet.subset_trans (KeySet.subset_of_testAndInsert? hm) hi)
    simp only [List.length_cons]
    omega

/-- The order of lowering from an entry: the blocks that can be reached, each
before all that it leads to first, and then the others in their own order. A
number that is not live gives no block. -/
def lowerOrder? (g : Graph) (entry : BlockId) : Option (List (Option Block)) :=
  (g.leaveOrder [entry] (KeySet.ofSize g.cap) []).map fun r =>
    r.1.2.map g.block? ++ (g.blocks.filter (fun b => !r.1.1.contains b.id)).map some

end FlowGraph.Graph
