import FlowGraph.Proofs.Passes

/-!
What a call of a registered pass tells. On a well-formed graph a call does not
fail and leaves a well-formed graph, it says that it changed the graph exactly
when it took blocks out, and a call that says it changed nothing did not. So in
a row of calls none fails, whichever passes are called and in whichever order.
-/

namespace FlowGraph

namespace Graph

/-- Taking out some of the listed blocks makes the order shorter by as many. -/
theorem length_without_order {g : Graph} {ids : List BlockId} (hn : g.order.Nodup)
    (hids : ids.Nodup) (hlisted : ∀ b ∈ ids, b ∈ g.order) :
    (g.without ids).order.length + ids.length = g.order.length := by
  -- the rest of the order is the list itself, in another order perhaps
  have hperm : (g.order.filter (· ∈ ids)).Perm ids := by
    apply (List.perm_ext_iff_of_nodup (hn.filter _) hids).mpr
    intro b
    simp only [List.mem_filter, decide_eq_true_eq]
    exact ⟨fun h => h.2, fun h => ⟨hlisted b h, h⟩⟩
  have hsplit := List.length_eq_length_filter_add (l := g.order) (· ∈ ids)
  rw [hperm.length_eq] at hsplit
  have hrest : (g.without ids).order = g.order.filter (fun b => !decide (b ∈ ids)) := by
    unfold without
    simp
  rw [hrest]
  omega

end Graph

/-! ## One call -/

/-- What a pass gives back on a graph can be relied on. -/
structure PassResult.Sound (g : Graph) (r : PassResult Graph) : Prop where
  ok : r.error = none
  wellFormed : r.state.fault? = none
  changed : r.changed = true ↔ r.state.order.length < g.order.length
  still : r.changed = false → r.state = g

/-- A call that takes out some listed blocks, and does nothing else if there are none. -/
theorem PassResult.sound_of_taken {g : Graph} (hg : g.WellFormed) {r : PassResult Graph}
    {gone : List BlockId} (hn : gone.Nodup) (hlisted : ∀ b ∈ gone, b ∈ g.order)
    (hok : r.error = none) (hwf : r.state.WellFormed)
    (horder : r.state.order = (g.without gone).order) (hchanged : r.changed = !gone.isEmpty)
    (hnil : gone = [] → r.state = g) : r.Sound g := by
  have hlen := Graph.length_without_order hg.nodup hn hlisted
  constructor
  case ok => exact hok
  case wellFormed => exact Graph.fault?_eq_none.mpr hwf
  case changed =>
    rw [hchanged, horder]
    cases gone with
    | nil => simp at hlen ⊢; omega
    | cons b gone => simp at hlen ⊢; omega
  case still =>
    intro hc
    apply hnil
    simpa using hchanged.symm.trans hc

theorem Graph.WellFormed.sound_run {g : Graph} (h : g.WellFormed) {q : Pass Graph}
    (hq : q ∈ registeredPasses) : (q.run g).Sound g := by
  have hcases : q = emptyBlockElimination ∨ q = unreachableBlockElimination := by
    simpa [registeredPasses] using hq
  rcases hcases with rfl | rfl
  · obtain ⟨gone, f, hlooked, hstate, hchanged, herr⟩ := h.eliminateEmpty
    have hb := hlooked.bypassing
    apply PassResult.sound_of_taken h hb.nodup hb.listed herr
    · exact hstate ▸ hb.wellFormed h
    · show g.eliminateEmpty.state.order = _
      rw [hstate]
      rfl
    · exact hchanged
    · rintro rfl
      exact hstate.trans hb.bypassed_nil
  · obtain ⟨dead, hn, hdead, hstate, hchanged, herr⟩ := h.eliminateUnreachable
    apply PassResult.sound_of_taken h hn (fun b hb => ((hdead b).mp hb).1) herr
    · exact hstate ▸ Dead.wellFormed h hdead
    · exact congrArg Graph.order hstate
    · exact hchanged
    · rintro rfl
      exact hstate.trans (Graph.without_nil g)

/-! ## Calls in a row -/

/-- Passes called in a row, each on what the one before left: for every call, what it
was called on and what it gave back. -/
def Pass.calls {σ : Type} : List (Pass σ) → σ → List (σ × PassResult σ)
  | [], _ => []
  | q :: qs, x => (x, q.run x) :: Pass.calls qs (q.run x).state

theorem Graph.WellFormed.sound_calls {g : Graph} (h : g.WellFormed) {qs : List (Pass Graph)}
    (hqs : ∀ q ∈ qs, q ∈ registeredPasses) : ∀ c ∈ Pass.calls qs g, c.2.Sound c.1 := by
  induction qs generalizing g with
  | nil => simp [Pass.calls]
  | cons q qs ih =>
    have hq := h.sound_run (hqs q List.mem_cons_self)
    -- the later calls start from what this one leaves, which has no fault again
    have hlater := ih (Graph.fault?_eq_none.mp hq.wellFormed)
      (fun r hr => hqs r (List.mem_cons_of_mem q hr))
    intro c hc
    rcases List.mem_cons.mp hc with rfl | hc
    · exact hq
    · exact hlater c hc

/-- On a graph without a fault, a call of either pass does not fail, leaves a graph
without a fault, says that it changed the graph exactly when it left fewer blocks, and
left the very same graph if it says that it did not. So it is with each call in a row of
them, and none of these fails. -/
theorem Pass.a_pass_never_fails_and_tells_its_change (g : Graph) (hg : g.fault? = none) :
    g.eliminateEmpty.Sound g ∧ g.eliminateUnreachable.Sound g ∧
      ∀ qs : List (Pass Graph),
        (∀ q ∈ qs, q = emptyBlockElimination ∨ q = unreachableBlockElimination) →
        ∀ c ∈ Pass.calls qs g, c.2.Sound c.1 := by
  have hwf := Graph.fault?_eq_none.mp hg
  refine ⟨?_, ?_, ?_⟩
  · exact hwf.sound_run (q := emptyBlockElimination) (by simp [registeredPasses])
  · exact hwf.sound_run (q := unreachableBlockElimination) (by simp [registeredPasses])
  · intro qs hqs
    apply hwf.sound_calls
    intro q hq
    simpa [registeredPasses] using hqs q hq

/-- A function whose entry goes over two more blocks to a return, beside two blocks that
branch to each other and to the third, and that no path comes to. -/
def Graph.tangle : Graph where
  name := "tangle"
  slots :=
    [some { id := 0, name := "in",
            code := [{ op := .br, args := [.block 1], id := 0, block := 0 }] },
     some { id := 1, name := "hop",
            code := [{ op := .br, args := [.block 2], id := 1, block := 1 }] },
     some { id := 2, name := "out", code := [{ op := .ret, id := 2, block := 2 }] },
     some { id := 3, name := "lost",
            code :=
              [{ op := .const, imm := 1, id := 3, block := 3 },
               { op := .brif, args := [.value 3, .block 4, .block 2], id := 4, block := 3 }] },
     some { id := 4, name := "more",
            code := [{ op := .br, args := [.block 3], id := 5, block := 4 }] }]
  order := [0, 1, 2, 3, 4]
  entry := some 0
  nextValue := 6

theorem Pass.the_passes_never_fail_on_tangle :
    Graph.tangle.fault? = none ∧
    (Graph.tangle.eliminateUnreachable.Sound Graph.tangle ∧
      Graph.tangle.eliminateUnreachable.state.order = [0, 1, 2]) ∧
    (Pass.calls [unreachableBlockElimination, emptyBlockElimination, emptyBlockElimination,
      unreachableBlockElimination] Graph.tangle).map (fun c => (c.2.changed, c.2.error)) =
        [(true, none), (true, none), (true, none), (false, none)] ∧
    ∀ c ∈ Pass.calls [unreachableBlockElimination, emptyBlockElimination, emptyBlockElimination,
      unreachableBlockElimination] Graph.tangle, c.2.Sound c.1 := by
  have hg : Graph.tangle.fault? = none := by decide
  obtain ⟨-, hunreachable, hrow⟩ := a_pass_never_fails_and_tells_its_change Graph.tangle hg
  refine ⟨hg, ⟨hunreachable, by decide⟩, by decide, ?_⟩
  apply hrow
  simp

end FlowGraph
