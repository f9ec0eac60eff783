import FlowGraph.Proofs.GuardedRuns
import FlowGraph.Proofs.ReadFunctions

/-!
Runs without checks over functions that were read. A pass looks at each block
before it edits anything, and of a function that was read this finds all that
the check would. So a pass refuses a malformed function as a whole, and one that
it does not refuse stays well formed in every round.
-/

namespace FlowGraph

/-! ## Runs of registered passes -/

namespace Pipeline

variable {p : Pipeline Graph} {g : Graph}

/-- A run without checks over a malformed graph ends with its first call, which leaves the
graph as it is. -/
theorem run_of_malformed (hp : ∀ q ∈ p.passes, q ∈ registeredPasses) (hverify : p.verify = false)
    (hne : p.passes ≠ []) {v : Violation} (hbad : g.malformedBlock? = some v) :
    ∃ q, p.passes.head? = some q ∧
      p.run g = { state := g, calls := 1, error := some (.pass 0 q.name (.malformed v)) } := by
  obtain ⟨q, qs, hpasses⟩ := List.exists_cons_of_ne_nil hne
  have hq : q.run g = { state := g, error := some (.malformed v) } :=
    Graph.run_of_malformed (hp q (by simp [hpasses])) hbad
  have hx : p.faultAt g = none := by simp [faultAt, hverify]
  refine ⟨q, by simp [hpasses], ?_⟩
  rw [run_of_first_fails hpasses hx (congrArg PassResult.error hq), hq]

/-- A run over a well-formed graph fails at most since the rounds ran out, and none of its
calls fails. -/
theorem run_of_wellFormed (hp : ∀ q ∈ p.passes, q ∈ registeredPasses) (hg : g.WellFormed) :
    (p.run g).state.WellFormed ∧
      ((p.run g).error = none ∨ ∃ f n, (p.run g).error = some (.noFixpoint f n)) ∧
      ∀ c ∈ p.log g, c.result.error = none := by
  obtain ⟨hstate, herror⟩ := (keeps_wellFormed hp).run hg
  have hends : (p.run g).error = none ∨ ∃ f n, (p.run g).error = some (.noFixpoint f n) :=
    herror.imp_right fun h => ⟨_, _, h⟩
  refine ⟨hstate, hends, fun c hc => ?_⟩
  by_contra hfails
  exact (none_fails hends).2 c hc (.inl hfails)

end Pipeline

/-- A pass fails on a function of a text that is read exactly when some block of it is malformed.
It then tells what is wrong with the first such block, and leaves the function as it is. So a run
of passes without checks either ends with its first call, which finds such a block and changes
nothing, or finds none, in no call of any round. -/
theorem an_unchecked_run_refuses_a_malformed_function_whole {path : String} {text : List UInt8}
    {p : Program} (h : Text.read path text = .ok p) :
    ∀ g ∈ p.functions,
      (∀ q ∈ registeredPasses,
        ((q.run g).error ≠ none ↔ ∃ b ∈ g.blocks, b.fault? ≠ none) ∧
        ∀ earlier b later i why, g.blocks = earlier ++ b :: later →
          (∀ c ∈ earlier, c.fault? = none) → b.fault? = some (i, why) →
          q.run g = { state := g, error := some (.malformed {
            function := g.name
            block := b.id
            blockName := b.name
            instr := i.map fun i => (i.id, i.op)
            reason := why }) }) ∧
      ∀ r : Pipeline Graph, r.verify = false → r.passes ≠ [] →
        (∀ q ∈ r.passes, q ∈ registeredPasses) →
        ((∃ b ∈ g.blocks, b.fault? ≠ none) ∧ ∃ q v, r.passes.head? = some q ∧
          (q.run g).error = some (.malformed v) ∧
          r.run g = { state := g, calls := 1, error := some (.pass 0 q.name (.malformed v)) }) ∨
        (∀ b ∈ g.blocks, b.fault? = none) ∧ (r.run g).state.fault? = none ∧
          ((r.run g).error = none ∨ ∃ f n, (r.run g).error = some (.noFixpoint f n)) ∧
          ∀ c ∈ r.log g, c.result.error = none := by
  intro g hg
  obtain ⟨o, hv, rfl⟩ := (Text.wellRead_of_read h).2.valid_of_mem hg
  refine ⟨fun q hq => ⟨?_, ?_⟩, fun r hverify hne hr => ?_⟩
  · rw [← Graph.malformedBlock?_ne_none]
    cases hbad : o.graph.malformedBlock? with
    | none => simp [((hv.wellFormed hbad).sound_run hq).ok]
    | some v => simp [Graph.run_of_malformed hq hbad]
  · intro earlier b later i why hblocks hearlier hb
    have hviolation := hv.blockViolation?_eq (by simp [hblocks]) hb
    exact Graph.run_of_malformed hq (Graph.malformedBlock?_of_first hblocks hearlier hviolation)
  · cases hbad : o.graph.malformedBlock? with
    | none =>
      obtain ⟨hstate, hends⟩ := Pipeline.run_of_wellFormed hr (hv.wellFormed hbad)
      exact .inr ⟨Graph.malformedBlock?_eq_none.mp hbad, Graph.fault?_eq_none.mpr hstate, hends⟩
    | some v =>
      obtain ⟨q, hq, hrun⟩ := Pipeline.run_of_malformed hr hverify hne hbad
      have hfails := Graph.run_of_malformed (hr q (List.mem_of_head? hq)) hbad
      exact .inl ⟨Graph.malformedBlock?_ne_none.mp (by simp [hbad]),
        q, v, hq, congrArg PassResult.error hfails, hrun⟩

/-- A pipeline of both passes that makes no checks. -/
def Pipeline.unchecked : Pipeline Graph where
  passes := [unreachableBlockElimination, emptyBlockElimination]
  maxRounds := 3
  onLimit := .reject
  verify := false

/-- Of the two functions of this text the first is refused, and the second is run over. -/
theorem an_unchecked_run_refuses_ragged_whole :
    Text.read "ragged" Program.raggedText = .ok Program.ragged ∧
      (∃ g ∈ Program.ragged.functions, ∃ v, v.reason = .earlyTerminator ∧
        Pipeline.unchecked.run g = {
          state := g
          calls := 1
          error := some (.pass 0 "unreachable-block-elimination" (.malformed v)) }) ∧
      ∃ g ∈ Program.ragged.functions, (Pipeline.unchecked.run g).state.fault? = none ∧
        ∀ c ∈ Pipeline.unchecked.log g, c.result.error = none := by
  have hread : Text.read "ragged" Program.raggedText = .ok Program.ragged := by decide +kernel
  have hall := an_unchecked_run_refuses_a_malformed_function_whole hread
  have hpasses : ∀ q ∈ Pipeline.unchecked.passes, q ∈ registeredPasses := by
    simp [Pipeline.unchecked, registeredPasses]
  refine ⟨hread, ⟨_, List.mem_cons_self, ?_⟩, ⟨_, List.mem_cons_of_mem _ List.mem_cons_self, ?_⟩⟩
  · obtain ⟨hpass, hrun⟩ := hall _ List.mem_cons_self
    have hfirst := (hpass unreachableBlockElimination (by simp [registeredPasses])).2
      [_] _ [_] (some _) _ rfl (by decide +kernel) rfl
    rcases hrun Pipeline.unchecked rfl (by simp [Pipeline.unchecked]) hpasses with hbad | hfine
    · obtain ⟨-, q, v, hq, herror, heq⟩ := hbad
      cases hq
      rw [hfirst] at herror
      cases herror
      exact ⟨_, rfl, heq⟩
    · exact absurd (hfine.1 _ (List.mem_cons_of_mem _ List.mem_cons_self)) (by decide +kernel)
  · obtain ⟨-, hrun⟩ := hall _ (List.mem_cons_of_mem _ List.mem_cons_self)
    rcases hrun Pipeline.unchecked rfl (by simp [Pipeline.unchecked]) hpasses with hbad | hfine
    · obtain ⟨⟨b, hb, hfault⟩, -⟩ := hbad
      exfalso
      revert b
      decide +kernel
    · exact ⟨hfine.2.1, hfine.2.2.2⟩

end FlowGraph
