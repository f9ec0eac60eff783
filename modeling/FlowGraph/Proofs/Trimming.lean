import FlowGraph.Compile
import FlowGraph.Proofs.Compilation
import FlowGraph.Proofs.Convergence
import FlowGraph.Proofs.ReadFunctions

/-!
What a run of both passes leaves of a function that was read, whether or not
it had rounds enough. The blocks that are left are some of those that a path
comes to, and among them are all that do more than pass a run on. Their code
is as it was but for where it branches to.
-/

namespace FlowGraph

/-! ## What is left of a graph -/

namespace Graph

/-- The graph `g'` is `g` without some blocks that no path comes to or that only pass a run
on, and with branches led elsewhere. -/
structure Trimmed (g g' : Graph) : Prop where
  wellFormed : g'.WellFormed
  name : g'.name = g.name
  order : g'.order.Sublist g.order
  code : ∃ f, ∀ b ∈ g'.order, g'.block? b = (g.block? b).map (Block.retarget f)
  reaches : ∀ b, g'.Reaches b ↔ g.Reaches b ∧ b ∈ g'.order
  stays : ∀ b, g.Reaches b → ¬ g.PassThrough b → b ∈ g'.order

variable {g g' : Graph}

theorem Trimmed.refl (h : g.WellFormed) : g.Trimmed g where
  wellFormed := h
  name := rfl
  order := List.Sublist.refl _
  code := by
    refine ⟨fun b => b, fun b _ => ?_⟩
    cases g.block? b with
    | none => rfl
    | some block => rw [Option.map_some, Block.retarget_self]
  reaches b := by
    constructor
    · exact fun hb => ⟨hb, h.mem_of_reaches hb⟩
    · exact fun hb => hb.1
  stays _ hb _ := h.mem_of_reaches hb

/-- A block that is left and passes a run on did so before. -/
theorem Trimmed.passThrough (h : g.Trimmed g') {b : BlockId} (hb : b ∈ g'.order)
    (hp : g'.PassThrough b) : g.PassThrough b := by
  obtain ⟨f, hf⟩ := h.code
  obtain ⟨block', i, hblock', hcode, hop⟩ := hp
  rw [hf b hb] at hblock'
  obtain ⟨block, hblock, rfl⟩ := Option.map_eq_some_iff.mp hblock'
  obtain ⟨j, hj, rfl⟩ := List.map_eq_singleton_iff.mp hcode
  exact ⟨block, j, hblock, hj, hop⟩

/-- One more edit. -/
theorem Trimmed.edited (h : g.Trimmed g') {g'' : Graph} {f : BlockId → BlockId}
    (he : Edited g' g'' f) : g.Trimmed g'' where
  wellFormed := he.wellFormed
  name := he.name.trans h.name
  order := he.order.trans h.order
  code := by
    obtain ⟨f₀, hf₀⟩ := h.code
    refine ⟨fun b => f (f₀ b), fun b hb => ?_⟩
    rw [he.block b hb, hf₀ b (he.order.subset hb)]
    cases g.block? b with
    | none => rfl
    | some block => simp [Block.retarget_retarget, Function.comp_def]
  reaches b := by
    rw [he.reaches, h.reaches]
    constructor
    · rintro ⟨⟨hr, -⟩, hb⟩
      exact ⟨hr, hb⟩
    · rintro ⟨hr, hb⟩
      exact ⟨⟨hr, he.order.subset hb⟩, hb⟩
  stays b hr hno := by
    have hb := h.stays b hr hno
    apply he.stays b ((h.reaches b).mpr ⟨hr, hb⟩)
    rw [h.wellFormed.rep_eq_self hb]
    exact .inl fun hp => hno (h.passThrough hb hp)

/-- An instruction that is left was there, but for where it branches to. -/
theorem Trimmed.instr_of_mem (h : g.Trimmed g') (hg : g.WellFormed) :
    ∃ f, ∀ i' ∈ g'.instrs, ∃ i ∈ g.instrs, i' = i.retarget f := by
  obtain ⟨f, hf⟩ := h.code
  refine ⟨f, fun i' hi' => ?_⟩
  obtain ⟨b, hb, block', hblock', hi'⟩ := mem_instrs.mp hi'
  have hb₀ := h.order.subset hb
  obtain ⟨block, hblock, -⟩ := hg.block b hb₀
  rw [hf b hb, hblock] at hblock'
  cases hblock'
  obtain ⟨i, hi, rfl⟩ := List.mem_map.mp hi'
  exact ⟨i, mem_instrs.mpr ⟨b, hb₀, block, hblock, hi⟩, rfl⟩

/-- The instruction is in a block that a path comes to. -/
def Lives (g : Graph) (i : Instr) : Prop :=
  ∃ b block, g.Reaches b ∧ g.block? b = some block ∧ i ∈ block.code

theorem WellFormed.mem_of_lives (h : g.WellFormed) {i : Instr} (hi : g.Lives i) : i ∈ g.instrs := by
  obtain ⟨b, block, hr, hblock, hi⟩ := hi
  exact mem_instrs.mpr ⟨b, h.mem_of_reaches hr, block, hblock, hi⟩

/-- What is left are blocks that a path comes to. -/
structure Pruned (g g' : Graph) : Prop extends Trimmed g g' where
  reached : ∀ b ∈ g'.order, g.Reaches b

/-- What is left are the instructions of blocks that a path comes to, and all of them but for
some branches. -/
theorem Pruned.instrs (h : g.Pruned g') :
    ∃ f, (∀ i' ∈ g'.instrs, ∃ i, g.Lives i ∧ i' = i.retarget f) ∧
      ∀ i, g.Lives i → i.op ≠ .br → i.retarget f ∈ g'.instrs := by
  obtain ⟨f, hf⟩ := h.code
  refine ⟨f, ?_, ?_⟩
  · intro i' hi'
    obtain ⟨b, hb, block', hblock', hi'⟩ := mem_instrs.mp hi'
    rw [hf b hb] at hblock'
    obtain ⟨block, hblock, rfl⟩ := Option.map_eq_some_iff.mp hblock'
    obtain ⟨i, hi, rfl⟩ := List.mem_map.mp hi'
    exact ⟨i, ⟨b, block, h.reached b hb, hblock, hi⟩, rfl⟩
  · rintro i ⟨b, block, hr, hblock, hi⟩ hop
    have hb : b ∈ g'.order := by
      apply h.stays b hr
      rintro ⟨block₁, j, hblock₁, hcode, hj⟩
      rw [hblock] at hblock₁
      cases hblock₁
      rw [hcode, List.mem_singleton] at hi
      exact hop (hi ▸ hj)
    have hblock' : g'.block? b = some (block.retarget f) := by
      rw [hf b hb, hblock]
      rfl
    exact mem_instrs.mpr ⟨b, hb, _, hblock', List.mem_map_of_mem hi⟩

end Graph

namespace Pipeline

variable {p : Pipeline Graph} {g : Graph}

theorem keeps_trimmed (hp : ∀ q ∈ p.passes, q ∈ registeredPasses) (g : Graph) :
    p.Keeps g.Trimmed := by
  apply keeps_registered hp
  · exact fun _ h => h.wellFormed
  · exact fun _ _ _ h hlooked => h.edited (hlooked.edited h.wellFormed)
  · exact fun _ _ h hdead => h.edited (hdead.edited h.wellFormed)

/-- Passes in a row leave no more than a pipeline of them does. -/
theorem leave_trimmed {qs : List (Pass Graph)} (hqs : ∀ q ∈ qs, q ∈ registeredPasses)
    (hg : g.WellFormed) : g.Trimmed (leave qs g) := by
  let row : Pipeline Graph := { passes := qs, maxRounds := 0, onLimit := .reject, verify := true }
  exact (keeps_trimmed (p := row) hqs g).after_calls (fun _ hq => hq) (.refl hg)

/-- Where a path comes to every block, none is lost. -/
theorem keeps_reaching (hp : ∀ q ∈ p.passes, q ∈ registeredPasses) :
    p.Keeps fun g => g.WellFormed ∧ ∀ b ∈ g.order, g.Reaches b := by
  apply keeps_registered hp
  · exact fun _ h => h.1
  · rintro g gone f ⟨hwf, hall⟩ hlooked
    have he := hlooked.edited hwf
    exact ⟨he.wellFormed, fun b hb => (he.reaches b).mpr ⟨hall b (he.order.subset hb), hb⟩⟩
  · rintro g dead ⟨hwf, hall⟩ hdead
    have he := hdead.edited hwf
    exact ⟨he.wellFormed, fun b hb => (he.reaches b).mpr ⟨hall b (he.order.subset hb), hb⟩⟩

/-- The first round takes out all that no path comes to. -/
theorem reaching_leave (hp : p.passes = registeredPasses) (hg : g.WellFormed) :
    (leave p.passes g).WellFormed ∧ ∀ b ∈ (leave p.passes g).order, (leave p.passes g).Reaches b := by
  obtain ⟨gone, f, hlooked, hstate, -, -⟩ := hg.eliminateEmpty
  have hwf := hlooked.bypassing.wellFormed hg
  obtain ⟨dead, -, hdead, hkept, -, -⟩ := hwf.eliminateUnreachable
  have hleave : leave p.passes g = (g.bypassed gone f).without dead := by
    rw [hp]
    show (g.eliminateEmpty.state).eliminateUnreachable.state = _
    rw [hstate, hkept]
  have hdead : (g.bypassed gone f).Dead dead := hdead
  rw [hleave]
  refine ⟨hdead.wellFormed hwf, ?_⟩
  intro b hb
  exact (hdead.reaches_iff hwf).mpr ((hdead.mem_order hwf).mp hb)

/-- A run of both passes leaves blocks that a path comes to, and all of them that do more
than pass a run on. -/
theorem run_pruned (hp : p.passes = registeredPasses) (hg : g.WellFormed) :
    g.Pruned (p.run g).state := by
  have hall : ∀ q ∈ p.passes, q ∈ registeredPasses := by simp [hp]
  have htrimmed := ((keeps_trimmed hall g).run (Graph.Trimmed.refl hg)).1
  refine ⟨htrimmed, ?_⟩
  suffices h : ∀ b ∈ (p.run g).state.order, (p.run g).state.Reaches b from
    fun b hb => ((htrimmed.reaches b).mp (h b hb)).1
  obtain ⟨left, hleft⟩ := Nat.exists_eq_add_one.mpr p.roundLimit_pos
  have hkeeps := (lowers_registered hall).keeps
  have hround := hkeeps.round_eq 0 hg
  unfold Pipeline.run
  rw [hkeeps.sound g hg, hleft]
  dsimp only
  rw [rounds_succ (by rw [hround]), hround]
  dsimp only
  split
  · exact ((keeps_reaching hall).rounds left _ _ rfl (reaching_leave hp hg)).1.2
  · exact (reaching_leave hp hg).2

/-- A run of no passes only checks. -/
theorem run_nil (hp : p.passes = []) :
    (p.run g).state = g ∧ ((p.run g).error = none ↔ p.faultAt g = none) := by
  obtain ⟨left, hleft⟩ := Nat.exists_eq_add_one.mpr p.roundLimit_pos
  unfold Pipeline.run
  cases p.faultAt g with
  | some v => simp
  | none =>
    rw [hleft]
    simp [Pipeline.rounds, Pipeline.round, hp]

/-- A run fails when its first pass does. -/
theorem malformedBlock?_of_run (hp : p.passes = registeredPasses)
    (h : (p.run g).error = none) : g.malformedBlock? = none := by
  cases hbad : g.malformedBlock? with
  | none => rfl
  | some v =>
    have hfirst : emptyBlockElimination ∈ registeredPasses := List.mem_cons_self
    have hfails := congrArg PassResult.error (Graph.run_of_malformed hfirst hbad)
    cases hx : p.faultAt g with
    | some w => simp [Pipeline.run, hx] at h
    | none =>
      rw [run_of_first_fails hp hx hfails] at h
      cases h

end Pipeline

/-! ## Runs over programs -/

theorem Pipeline.runAll_ok {q : Pipeline Graph} {gs : List Graph} :
    (q.runAll gs).error = none ↔ ∀ g ∈ gs, (q.run g).error = none := by
  induction gs with
  | nil => simp [Pipeline.runAll, ProgramRun.error]
  | cons g gs ih =>
    rw [Pipeline.runAll, List.forall_mem_cons, ← ih]
    cases herr : (q.run g).error with
    | some e => simp [ProgramRun.error, herr]
    | none => simp [ProgramRun.error, herr]

theorem Pipeline.runAll_functions {q : Pipeline Graph} {gs : List Graph}
    (h : ∀ g ∈ gs, (q.run g).error = none) :
    (q.runAll gs).functions = gs.map (fun g => (q.run g).state) := by
  induction gs with
  | nil => rfl
  | cons g gs ih =>
    obtain ⟨hg, hgs⟩ := List.forall_mem_cons.mp h
    rw [Pipeline.runAll, hg]
    simp only [Option.isSome_none, Bool.false_eq_true, if_false, List.map_cons, ← ih hgs]
    rfl

namespace Settings

theorem pipeline_eq_ok {s : Settings} {q : Pipeline Graph} :
    s.pipeline = .ok q ↔ s.fault? = none ∧ q =
      { passes := s.passes.filterMap registeredPass?
        maxRounds := s.maxRounds
        onLimit := (Policy.ofName? s.onLimit).getD .reject
        verify := s.verify } := by
  unfold Settings.pipeline
  cases s.fault? with
  | some f => simp
  | none => simp [eq_comm]

/-- The usual pass list makes a pipeline of both passes. -/
theorem passes_of_default {s : Settings} {q : Pipeline Graph} (h : s.pipeline = .ok q)
    (hs : s.passes = Settings.default.passes) : q.passes = registeredPasses := by
  obtain ⟨-, rfl⟩ := pipeline_eq_ok.mp h
  rw [hs]
  rfl

/-- A text is simplified when the settings are valid, it is read, and no run fails. -/
theorem optimize_eq_ok {s : Settings} {path : String} {text : List UInt8} {p' : Program} :
    s.optimize path text = .ok p' ↔ ∃ q p, s.pipeline = .ok q ∧ Text.read path text = .ok p ∧
      (∀ g ∈ p.functions, (q.run g).error = none) ∧
      p' = { p with functions := p.functions.map fun g => (q.run g).state } := by
  unfold Settings.optimize
  cases s.pipeline with
  | error e => simp [Except.mapError, bind, Except.bind]
  | ok q =>
    cases Text.read path text with
    | error e => simp [Except.mapError, bind, Except.bind]
    | ok p =>
      have herr : (q.runAll p.functions).error = none ↔ _ := Pipeline.runAll_ok
      simp only [Except.mapError, bind, Except.bind, Except.ok.injEq, exists_and_left, exists_eq_left',
        ← herr]
      cases hrun : (q.runAll p.functions).error with
      | some e => simp [throw, throwThe, MonadExceptOf.throw]
      | none =>
        simp only [true_and, pure, Except.pure, Except.ok.injEq,
          Pipeline.runAll_functions (herr.mp hrun), eq_comm (a := p')]

end Settings

end FlowGraph
