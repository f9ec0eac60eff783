import FlowGraph.Proofs.CallLog
import FlowGraph.Proofs.Calls

/-!
What a run keeps to with any passes, even with passes that break graphs. No
pass sees a graph that did not pass the check, and none is called after a
failure. The rounds run out only when each of them changed something. A run
tells the changes of the rounds that it finished; those of a round that a
failure cut off are lost.
-/

namespace FlowGraph

namespace Pipeline

section Guards

variable {σ : Type} [HasGraph σ] {p : Pipeline σ} {x : σ}

/-! ## What every run keeps to -/

/-- Only the last call of a run may fail. -/
theorem only_last_fails (p : Pipeline σ) (x : σ) : ∀ c ∈ (p.log x).dropLast, ¬ p.Fails c := by
  cases hx : p.faultAt x with
  | some v =>
    rw [(run_refused hx).1]
    simp
  | none =>
    obtain ⟨rs, last, hlog, hmoved, -, -, hends⟩ := run_course hx
    rw [hlog]
    generalize (p.run x).error = e at hends
    cases hends with
    | emitted | rejected =>
      rw [List.append_nil]
      exact fun c hc => hmoved.ok c ((List.dropLast_sublist _).subset hc)
    | settled more finished quiet =>
      intro c hc
      rcases List.mem_append.mp ((List.dropLast_sublist _).subset hc) with hc | hc
      · exact hmoved.ok c hc
      · exact finished.ok c hc
    | failed more passes ok fails =>
      rw [← List.append_assoc, List.dropLast_concat]
      exact List.forall_mem_append.mpr ⟨hmoved.ok, ok⟩

/-- No call is made on a state that does not pass the check. -/
theorem calls_are_checked (p : Pipeline σ) (x : σ) : ∀ c ∈ p.log x, p.faultAt c.before = none := by
  cases hx : p.faultAt x with
  | some v =>
    rw [(run_refused hx).1]
    simp
  | none =>
    obtain ⟨_, _, -, -, hrow, -, -⟩ := run_course hx
    exact faultAt_before hrow hx (p.only_last_fails x)

/-- A run that ends well, or only runs out of rounds, was not refused, and none of its calls
failed. -/
theorem none_fails (h : (p.run x).error = none ∨ ∃ f n, (p.run x).error = some (.noFixpoint f n)) :
    p.faultAt x = none ∧ ∀ c ∈ p.log x, ¬ p.Fails c := by
  cases hx : p.faultAt x with
  | some v =>
    rw [(run_refused hx).2] at h
    simp at h
  | none =>
    refine ⟨rfl, ?_⟩
    obtain ⟨rs, last, hlog, hmoved, -, -, hends⟩ := run_course hx
    rw [hlog]
    generalize (p.run x).error = e at h hends
    cases hends with
    | emitted | rejected =>
      rw [List.append_nil]
      exact hmoved.ok
    | settled more finished quiet => exact List.forall_mem_append.mpr ⟨hmoved.ok, finished.ok⟩
    | failed more passes ok fails =>
      rcases h with h | ⟨f, n, h⟩
      · cases h
      · rw [h] at fails
        exact absurd fails (failure?_ne_noFixpoint f n)

/-- Each round that may be made is made and changes something. -/
def NeverQuiet (p : Pipeline σ) (x : σ) : Prop :=
  ∀ k < p.roundLimit, ∃ c ∈ p.callsIn x k, c.result.changed = true

/-- The rounds run out when nothing fails, no round is quiet, and the policy is to reject. -/
theorem noFixpoint_iff : (∃ f n, (p.run x).error = some (.noFixpoint f n)) ↔
    (p.faultAt x = none ∧ ∀ c ∈ p.log x, ¬ p.Fails c) ∧ p.NeverQuiet x ∧ p.onLimit ≠ .emit := by
  constructor
  · intro h
    have hok := none_fails (.inr h)
    refine ⟨hok, ?_⟩
    obtain ⟨rs, last, hlog, hmoved, -, -, hends⟩ := run_course hok.1
    obtain ⟨f, n, h⟩ := h
    rw [h] at hends
    have hlast := hends.length_le
    cases hends with
    | rejected out policy =>
      exact ⟨fun k hk => (callsIn_of_lt hlog hmoved hlast (out ▸ hk)).2, by simp [policy]⟩
    | failed more passes ok fails => exact absurd fails (failure?_ne_noFixpoint f n)
  · rintro ⟨⟨hx, hok⟩, hnever, hpolicy⟩
    obtain ⟨rs, last, hlog, hmoved, -, -, hends⟩ := run_course hx
    have hlast := hends.length_le
    generalize (p.run x).error = e at *
    cases hends with
    | emitted out policy => exact absurd policy hpolicy
    | rejected => exact ⟨_, _, rfl⟩
    | settled more finished quiet =>
      obtain ⟨c, hc, hchanged⟩ := hnever rs.length more
      rw [callsIn_length hlog hmoved hlast] at hc
      rw [quiet c hc] at hchanged
      cases hchanged
    | @failed cs c e more passes ok fails =>
      have hc := hok c (by simp [hlog])
      rw [failure?_eq_none.mpr hc] at fails
      cases fails

/-- A run that ends well before the rounds run out ends with a quiet round. -/
theorem quiet_at_the_end (h : (p.run x).error = none) (hquiet : ¬ p.NeverQuiet x) :
    ∃ last < p.roundLimit, (p.log x).length = (last + 1) * p.passes.length ∧
      (∀ k < last, ∃ c ∈ p.callsIn x k, c.result.changed = true) ∧
      (∀ k ≤ last, (p.callsIn x k).map (·.pass) = p.passes) ∧
      ∀ c ∈ p.callsIn x last, c.result.changed = false := by
  obtain ⟨rs, last, hlog, hmoved, -, -, hends⟩ := run_course (none_fails (.inl h)).1
  rw [h] at hends
  have hlast := hends.length_le
  have hbefore : ∀ k < rs.length, _ := fun k => callsIn_of_lt hlog hmoved hlast
  have hend := callsIn_length hlog hmoved hlast
  cases hends with
  | emitted out policy => exact absurd (fun k hk => (hbefore k (out ▸ hk)).2) hquiet
  | settled more finished quiet =>
    refine ⟨rs.length, more, ?_, fun k hk => (hbefore k hk).2, ?_, ?_⟩
    · have hflat : rs.flatten.length = rs.length * p.passes.length := by
        rw [List.length_flatten, List.map_congr_left fun r hr => (hmoved r hr).1.length]
        simp
      rw [hlog, List.length_append, hflat, finished.length, Nat.succ_mul]
    · intro k hk
      rcases Nat.lt_or_eq_of_le hk with hk | rfl
      · exact (hbefore k hk).1.passes
      · rw [hend]
        exact finished.passes
    · rw [hend]
      exact quiet

/-- Noting the calls does not disturb a run, and each call is made on what the one before it
left. A run that checks calls no pass on a graph with a fault, and nothing at all after a
failure. When it ends well, or only runs out of rounds, what it leaves has no fault. The rounds
run out exactly when nothing failed, each of them changed something, and the policy is not to
emit. When fewer rounds than that change something and the run ends well, each round called
each pass once, and the last round changed nothing. -/
theorem a_checked_run_keeps_faulty_graphs_from_its_passes (hv : p.verify = true) (x : σ) :
    (p.logged.run { state := x }).plain = p.run x ∧ Call.Row x (p.log x) (p.run x).state ∧
    (∀ c ∈ p.log x, (HasGraph.graph c.before).fault? = none) ∧
    ((HasGraph.graph x).fault? ≠ none → p.log x = []) ∧
    (∀ earlier c later, p.log x = earlier ++ c :: later →
      c.result.error ≠ none ∨ (HasGraph.graph c.result.state).fault? ≠ none → later = []) ∧
    ((p.run x).error = none ∨ (∃ f n, (p.run x).error = some (.noFixpoint f n)) →
      (HasGraph.graph (p.run x).state).fault? = none) ∧
    ((∃ f n, (p.run x).error = some (.noFixpoint f n)) ↔
      ((HasGraph.graph x).fault? = none ∧ ∀ c ∈ p.log x,
        c.result.error = none ∧ (HasGraph.graph c.result.state).fault? = none) ∧
      (∀ k < p.roundLimit, ∃ c ∈ p.callsIn x k, c.result.changed = true) ∧ p.onLimit ≠ .emit) ∧
    ((p.run x).error = none →
      ¬ (∀ k < p.roundLimit, ∃ c ∈ p.callsIn x k, c.result.changed = true) →
      ∃ last < p.roundLimit, (p.log x).length = (last + 1) * p.passes.length ∧
        (∀ k < last, ∃ c ∈ p.callsIn x k, c.result.changed = true) ∧
        (∀ k ≤ last, (p.callsIn x k).map (·.pass) = p.passes) ∧
        ∀ c ∈ p.callsIn x last, c.result.changed = false) := by
  have hcheck : ∀ y, p.faultAt y = (HasGraph.graph y).fault? := fun y => by simp [faultAt, hv]
  have hfails : ∀ c, p.Fails c ↔
      c.result.error ≠ none ∨ (HasGraph.graph c.result.state).fault? ≠ none := by
    intro c
    rw [← hcheck]
    rfl
  refine ⟨p.run_logged _, ?_, ?_, ?_, ?_, ?_, ?_, quiet_at_the_end⟩
  · cases hx : p.faultAt x with
    | some v =>
      rw [(run_refused hx).1, (run_refused hx).2]
      exact .nil x
    | none =>
      obtain ⟨_, _, -, -, hrow, -, -⟩ := run_course hx
      exact hrow
  · intro c hc
    rw [← hcheck]
    exact p.calls_are_checked x c hc
  · intro hx
    rw [← hcheck] at hx
    obtain ⟨v, hv⟩ := Option.ne_none_iff_exists'.mp hx
    exact (run_refused hv).1
  · intro earlier c later hlog hc
    by_contra hlater
    refine p.only_last_fails x c ?_ ((hfails c).mpr hc)
    rw [hlog, List.dropLast_append_cons, List.dropLast_cons_of_ne_nil hlater]
    simp
  · intro h
    obtain ⟨hx, hok⟩ := none_fails h
    obtain ⟨_, _, -, -, hrow, -, -⟩ := run_course hx
    rw [← hcheck]
    exact faultAt_after hrow hx hok
  · rw [noFixpoint_iff, hcheck]
    simp only [hfails, not_or, not_not]
    rfl

end Guards

end Pipeline

/-- Says that it changed the graph, and did not. -/
def Pass.boasting : Pass Graph where
  name := "boast"
  run g := { state := g, changed := true }

/-- Says that it changed the graph, and fails. -/
def Pass.failing : Pass Graph where
  name := "fail"
  run g := { state := g, changed := true, error := some (.own "no way on") }

/-- Puts a constant after the end of the entry block. -/
def Pass.breaking : Pass Graph where
  name := "break"
  run g := { state := g.append (g.entry.getD noBlock) (.const 1), changed := true }

namespace Pipeline

/-- A pipeline with a pass that spoils the graph for the last one. -/
def spoiling : Pipeline Graph where
  passes := [emptyBlockElimination, .breaking, unreachableBlockElimination]
  maxRounds := 0
  onLimit := .emit
  verify := true

/-- A pipeline that does not come to rest. -/
def restless : Pipeline Graph where
  passes := [emptyBlockElimination, .boasting]
  maxRounds := 3
  onLimit := .reject
  verify := true

theorem a_checked_run_keeps_faulty_graphs_from_the_last_pass :
    (spoiling.verify = true ∧
      (spoiling.log Graph.tangle).map (·.pass.name) = ["empty-block-elimination", "break"] ∧
      (∀ c ∈ spoiling.log Graph.tangle, c.before.fault? = none) ∧
      (spoiling.run Graph.tangle).state.fault? ≠ none) ∧
    restless.verify = true ∧ (restless.log Graph.tangle).length = 6 ∧
      (∃ f n, (restless.run Graph.tangle).error = some (.noFixpoint f n)) ∧
      (restless.run Graph.tangle).state.fault? = none := by
  obtain ⟨-, -, hbefore, -⟩ :=
    a_checked_run_keeps_faulty_graphs_from_its_passes (p := spoiling) rfl Graph.tangle
  obtain ⟨-, -, -, -, -, hleft, hout, -⟩ :=
    a_checked_run_keeps_faulty_graphs_from_its_passes (p := restless) rfl Graph.tangle
  have hends : ∃ f n, (restless.run Graph.tangle).error = some (.noFixpoint f n) := by
    apply hout.mpr
    decide +kernel
  exact ⟨⟨rfl, by decide +kernel, hbefore, by decide +kernel⟩, rfl, by decide +kernel, hends,
    hleft (.inr hends)⟩

/-! ## What a run says of its changes -/

section Changes

variable {σ : Type} [HasGraph σ] {p : Pipeline σ} {x : σ}

theorem callsIn_refused {v : Violation} (hx : p.faultAt x = some v) (k : Nat) :
    p.callsIn x k = [] := by
  unfold callsIn
  rw [(run_refused hx).1]
  simp

/-- A run counts the changes of the rounds that it finished, and no others. -/
theorem changed_iff : (p.run x).changed = true ↔
    ∃ k, p.Finished (p.callsIn x k) ∧ ∃ c ∈ p.callsIn x k, c.result.changed = true := by
  cases hx : p.faultAt x with
  | some v => simp [(run_refused hx).2, callsIn_refused hx]
  | none =>
    obtain ⟨rs, last, hlog, hmoved, -, hchanged, hends⟩ := run_course hx
    have hlast := hends.length_le
    rw [hchanged]
    constructor
    · intro hsome
      have hpos : 0 < rs.length := by simpa [List.length_pos_iff] using hsome
      exact ⟨0, callsIn_of_lt hlog hmoved hlast hpos⟩
    · rintro ⟨k, hfinished, c, hc, htold⟩
      suffices hk : k < rs.length by
        simpa using List.ne_nil_of_length_pos (Nat.zero_lt_of_lt hk)
      by_contra hk
      rw [callsIn_eq hlog hmoved hlast, List.getElem?_append_right (Nat.le_of_not_lt hk)]
        at hc hfinished
      -- the calls are those of the last round, which is quiet or not finished
      cases hplace : k - rs.length with
      | succ j => simp [hplace] at hc
      | zero =>
        simp only [hplace, List.getElem?_cons_zero, Option.getD_some] at hc hfinished
        generalize (p.run x).error = e at hends
        cases hends with
        | emitted | rejected => cases hc
        | settled more finished quiet =>
          rw [quiet c hc] at htold
          cases htold
        | @failed cs d e more passes ok fails =>
          have hd := hfinished.ok d (by simp)
          rw [failure?_eq_none.mpr hd] at fails
          cases fails

/-- Where no round is cut off, that is every change that a call told. -/
theorem changed_iff_of_error
    (h : (p.run x).error = none ∨ ∃ f n, (p.run x).error = some (.noFixpoint f n)) :
    (p.run x).changed = true ↔ ∃ c ∈ p.log x, c.result.error = none ∧ c.result.changed = true := by
  obtain ⟨hx, hok⟩ := none_fails h
  rw [changed_iff]
  constructor
  · rintro ⟨k, -, c, hc, htold⟩
    have hin : c ∈ p.log x := List.mem_of_mem_drop (List.mem_of_mem_take hc)
    exact ⟨c, hin, by simpa using (not_or.mp (hok c hin)).1, htold⟩
  · rintro ⟨c, hc, -, htold⟩
    obtain ⟨rs, last, hlog, hmoved, -, -, hends⟩ := run_course hx
    have hlast := hends.length_le
    rw [hlog, List.mem_append] at hc
    rcases hc with hc | hc
    · obtain ⟨r, hr, hc⟩ := List.mem_flatten.mp hc
      exact ⟨0, callsIn_of_lt hlog hmoved hlast (List.length_pos_of_mem hr)⟩
    · generalize (p.run x).error = e at h hends
      cases hends with
      | emitted | rejected => cases hc
      | settled more finished quiet =>
        rw [quiet c hc] at htold
        cases htold
      | @failed cs d e more passes ok fails =>
        have hd := hok d (by simp [hlog])
        rw [failure?_eq_none.mpr hd] at fails
        cases fails

end Changes

/-- A run over a program runs its functions in order, up to the first that fails. -/
theorem runAll_ran (p : Pipeline Graph) (gs : List Graph) :
    ∃ ran rest, gs = ran ++ rest ∧ (p.runAll gs).runs = ran.map p.run ∧
      (p.runAll gs).rest = rest ∧ (∀ g ∈ ran.dropLast, (p.run g).error = none) ∧
      (rest ≠ [] → ∃ g, ran.getLast? = some g ∧ (p.run g).error ≠ none) := by
  induction gs with
  | nil => exact ⟨[], [], rfl, rfl, rfl, by simp, by simp⟩
  | cons g gs ih =>
    rw [runAll]
    cases herr : (p.run g).error with
    | some e =>
      simp only [Option.isSome_some, if_true]
      exact ⟨[g], gs, rfl, rfl, rfl, by simp, fun _ => ⟨g, rfl, by simp [herr]⟩⟩
    | none =>
      obtain ⟨ran, rest, rfl, hruns, hrest, hok, hlast⟩ := ih
      simp only [Option.isSome_none, Bool.false_eq_true, if_false, hruns]
      refine ⟨g :: ran, rest, rfl, rfl, hrest, ?_, ?_⟩
      · cases ran with
        | nil => simp
        | cons g' ran =>
          rw [List.dropLast_cons_of_ne_nil (by simp)]
          exact List.forall_mem_cons.mpr ⟨herr, hok⟩
      · intro hne
        obtain ⟨g', hg', hfail⟩ := hlast hne
        exact ⟨g', by rw [List.getLast?_cons, hg']; rfl, hfail⟩

/-- A run says that it changed something exactly when a call of a finished round did. Where
no round is cut off, that is when any call did. A run over a program says so exactly when a call
did in the run of a function that did not fail. -/
theorem a_run_tells_the_changes_of_its_finished_rounds (p : Pipeline Graph) :
    (∀ g, ((p.run g).changed = true ↔
        ∃ k, p.Finished (p.callsIn g k) ∧ ∃ c ∈ p.callsIn g k, c.result.changed = true) ∧
      ((p.run g).error = none ∨ (∃ f n, (p.run g).error = some (.noFixpoint f n)) →
        ((p.run g).changed = true ↔
          ∃ c ∈ p.log g, c.result.error = none ∧ c.result.changed = true))) ∧
    ∀ gs, ∃ ran rest, gs = ran ++ rest ∧ (p.runAll gs).runs = ran.map p.run ∧
      (p.runAll gs).rest = rest ∧ (∀ g ∈ ran.dropLast, (p.run g).error = none) ∧
      (rest ≠ [] → ∃ g, ran.getLast? = some g ∧ (p.run g).error ≠ none) ∧
      ((p.runAll gs).changed = true ↔ ∃ g ∈ ran, (p.run g).error = none ∧
        ∃ c ∈ p.log g, c.result.error = none ∧ c.result.changed = true) := by
  refine ⟨fun g => ⟨changed_iff, changed_iff_of_error⟩, fun gs => ?_⟩
  obtain ⟨ran, rest, hgs, hruns, hrest, hok, hlast⟩ := p.runAll_ran gs
  refine ⟨ran, rest, hgs, hruns, hrest, hok, hlast, ?_⟩
  unfold ProgramRun.changed
  rw [hruns, List.any_map, List.any_eq_true]
  refine exists_congr fun g => and_congr_right fun _ => ?_
  simp only [Function.comp, Bool.and_eq_true, Option.isNone_iff_eq_none]
  exact and_congr_right fun herr => changed_iff_of_error (.inl herr)

/-- A pipeline that fails after its first pass. -/
def hasty : Pipeline Graph where
  passes := [emptyBlockElimination, .failing]
  maxRounds := 4
  onLimit := .reject
  verify := true

/-- A change is not told when its round is cut off, and none is told of a function whose run
fails. -/
theorem a_run_need_not_tell_a_change :
    ((hasty.run Graph.tangle).changed = false ∧ (hasty.run Graph.tangle).state ≠ Graph.tangle ∧
      ∃ c ∈ hasty.log Graph.tangle, c.result.error = none ∧ c.result.changed = true) ∧
    (restless.runAll [Graph.tangle]).changed = false ∧
      (restless.runAll [Graph.tangle]).runs.map (·.changed) = [true] ∧
      ∃ c ∈ restless.log Graph.tangle, c.result.error = none ∧ c.result.changed = true := by
  decide +kernel

end Pipeline

end FlowGraph
