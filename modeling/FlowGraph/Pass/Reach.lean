import FlowGraph.Graph.Edges
import FlowGraph.KeySet

/-!
Which blocks can be reached from the entry by following branches. A block is
put on the list of blocks to visit when it is marked, and it is marked once. So
the search ends: each visit takes a block off the list, and each block that it
puts there is one less to mark.
-/

namespace FlowGraph.Graph

/-- Marks blocks as reached and puts those not reached before on the list of
blocks to visit. A negative number cannot be marked. -/
def markAll (found : List BlockId) (work : List BlockId) (reached : KeySet) :
    Option (List BlockId × KeySet) :=
  match found with
  | [] => some (work, reached)
  | b :: rest =>
    match reached.testAndInsert? b with
    | none => none
    | some (true, reached) => markAll rest work reached
    | some (false, reached) => markAll rest (b :: work) reached

/-! ## Why the search ends -/

/-- Where the branches of all blocks lead, with repeats. -/
def allTargets (g : Graph) : List BlockId := (g.slots.filterMap id).flatMap Block.targets

/-- How many branches lead to a block that is not marked. -/
def unmarked (g : Graph) (reached : KeySet) : Nat :=
  g.allTargets.countP (fun b => !reached.contains b)

theorem mem_allTargets {g : Graph} {b t : BlockId} (h : t ∈ g.successors b) :
    t ∈ g.allTargets := by
  unfold successors block? at h
  split at h
  · cases h
  · cases hs : g.slots[b.toNat]? with
    | none => simp [hs] at h
    | some slot =>
      cases slot with
      | none => simp [hs] at h
      | some block =>
        refine List.mem_flatMap.mpr ⟨block, ?_, by simpa [hs] using h⟩
        exact List.mem_filterMap.mpr ⟨some block, List.mem_of_getElem? hs, rfl⟩

theorem countP_unmarked_le {s s' : KeySet} {b : BlockId}
    (hs' : ∀ j, s'.contains j = (decide (j = b) || s.contains j)) (l : List BlockId) :
    l.countP (fun j => !s'.contains j) ≤ l.countP (fun j => !s.contains j) := by
  apply List.countP_mono_left
  intro j _ hj
  simp only [hs', Bool.not_or, Bool.and_eq_true] at hj
  exact hj.2

theorem unmarked_lt {g : Graph} {b : BlockId} {s s' : KeySet} (hb : b ∈ g.allTargets)
    (hs : s.contains b = false) (hs' : ∀ j, s'.contains j = (decide (j = b) || s.contains j)) :
    g.unmarked s' < g.unmarked s := by
  obtain ⟨before, after, hl⟩ := List.append_of_mem hb
  have hnew : s'.contains b = true := by simp [hs']
  have hbefore := countP_unmarked_le hs' before
  have hafter := countP_unmarked_le hs' after
  unfold unmarked
  simp only [hl, List.countP_append, List.countP_cons, hs, hnew, Bool.not_true, Bool.not_false,
    if_true, Bool.false_eq_true, if_false]
  omega

/-- A block comes on the list for each that is no longer unmarked. -/
theorem markAll_le {g : Graph} {found work work' : List BlockId} {reached reached' : KeySet}
    (hfound : ∀ b ∈ found, b ∈ g.allTargets)
    (h : markAll found work reached = some (work', reached')) :
    work'.length + g.unmarked reached' ≤ work.length + g.unmarked reached := by
  induction found generalizing work reached with
  | nil =>
    cases h
    exact Nat.le_refl _
  | cons b found ih =>
    have hrest : ∀ x ∈ found, x ∈ g.allTargets := fun x hx => hfound x (List.mem_cons_of_mem b hx)
    unfold markAll at h
    split at h
    · cases h
    · rename_i marked hm
      have hsame : g.unmarked marked ≤ g.unmarked reached :=
        countP_unmarked_le (KeySet.testAndInsert?_spec hm).2 g.allTargets
      have := ih hrest h
      omega
    · rename_i marked hm
      obtain ⟨hwas, hmarked⟩ := KeySet.testAndInsert?_spec hm
      have hless := unmarked_lt (hfound b List.mem_cons_self) hwas.symm hmarked
      have := ih hrest h
      simp only [List.length_cons] at this
      omega

/-! ## The search -/

/-- Visits the blocks on the list and those found on the way. -/
@[semireducible]
def explore (g : Graph) (work : List BlockId) (reached : KeySet) : Option KeySet :=
  match work with
  | [] => some reached
  | b :: work =>
    match _h : markAll (g.successors b) work reached with
    | none => none
    | some (work, reached) => explore g work reached
termination_by work.length + g.unmarked reached
decreasing_by
  have := markAll_le (fun t ht => mem_allTargets ht) ‹markAll _ _ _ = _›
  simp only [List.length_cons]
  omega

/-- The blocks that can be reached from the entry, which is none if the entry
is not live. There is no answer if an edge leads to a negative number. -/
def reachable? (g : Graph) : Option KeySet :=
  let nothing := KeySet.ofSize g.cap
  match g.entry.filter g.has with
  | none => some nothing
  | some e =>
    match nothing.insert? e with
    | none => none
    | some reached => g.explore [e] reached

end FlowGraph.Graph
